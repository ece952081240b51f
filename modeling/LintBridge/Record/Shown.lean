import LintBridge.Diagnostic
import LintBridge.Path.Canonical

/-!
# LintBridge.Record.Shown

From records to the diagnostics that show them, one for one and in the same order. The suggestion of
a violation becomes a remark on its own range; the remarks of a finding have their paths resolved.
-/

namespace LintBridge

/-- The diagnostic that shows a violation of the given file. -/
def Violation.shown (v : Violation) (file : Path) : Except Fault Diagnostic := do
  let related ←
    match v.suggestion with
    | some suggestion => do
      let uri ← file.toUri
      pure [({ location := ⟨uri, v.range⟩, message := suggestion } : Related)]
    | none => pure []
  return {
    range := v.range
    severity := .ofLabel .warning v.severity
    message := v.message ++ " (" ++ v.rule ++ ")"
    code := v.rule
    related }

/-- A remark with its path resolved into a URI. -/
def Related.resolved (r : Related) (disk : Disk) (workspace fallback : Option Path) :
    Except Fault Related := do
  let path ← disk.reportedAs workspace fallback r.location.uri
  let uri ← path.toUri
  return { location := ⟨uri, r.location.range⟩, message := r.message }

/-- The diagnostic that shows a finding. -/
def Finding.shown (f : Finding) (disk : Disk) (workspace fallback : Option Path) :
    Except Fault Diagnostic := do
  let related ← (f.related.getD []).mapM fun r => r.resolved disk workspace fallback
  return {
    range := f.range
    severity := .ofCode .warning f.severity
    message := f.message
    code := f.code
    related }

/-- The diagnostic that shows a record of the given file. -/
def Record.shown (r : Record) (disk : Disk) (file : Path) (workspace : Option Path) :
    Except Fault Diagnostic :=
  match r with
  | violation v => v.shown file
  | finding f => f.shown disk workspace (some file.parent)

/-- The diagnostics that show the records of a file. -/
def shownAll (disk : Disk) (records : List Record) (file : Path) (workspace : Option Path) :
    Except Fault (List Diagnostic) :=
  records.mapM fun r => r.shown disk file workspace

end LintBridge
