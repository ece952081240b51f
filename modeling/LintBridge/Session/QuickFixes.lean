import LintBridge.Record.Fixing
import LintBridge.Session.Basic

/-!
# LintBridge.Session.QuickFixes

The quick fixes that a session offers for the diagnostics of a document. They come from the records
stored for the document's file, so a diagnostic whose record is gone has no fix any more.
-/

namespace LintBridge

namespace Session

/-- The edits that fix what a diagnostic shows, if there is a fix. -/
def fixEdits? (records : List Record) (document : Buffer) (d : Diagnostic) (selection : Range) :
    Except Fault (Option (Record × List TextEdit)) :=
  match Record.fixFor? d.code d.range selection records with
  | none => .ok none
  | some record =>
    match record.edits document.content with
    | .ok edits => .ok (some (record, edits))
    | .error m => .error (.misfit m)

/-- The edits of the fix for a diagnostic of a document, if there is one. -/
def lookupFix (s : Session) (document : Buffer) (d : Diagnostic) (selection : Range) :
    Except Fault (Option (List TextEdit)) := do
  let records ← s.store.lookup s.disk document.path
  let found ← fixEdits? records document d selection
  return found.map (·.2)

/-- The quick fix for a diagnostic, if it is one of the linter's and has a fix. -/
def quickFix? (records : List Record) (document : Buffer) (selection : Range) (d : Diagnostic) :
    Except Fault (Option QuickFix) :=
  if d.source = linterSource then do
    let found ← fixEdits? records document d selection
    return found.map fun (record, edits) => ⟨record.fixTitle, document.uri, edits, d⟩
  else .ok none

/-- The quick fixes for the diagnostics of a document, in the order of the diagnostics. -/
def provideFixes (s : Session) (document : Buffer) (diagnostics : List Diagnostic)
    (selection : Range) : Except Fault (List QuickFix) := do
  let records ← s.store.lookup s.disk document.path
  let fixes ← diagnostics.mapM (quickFix? records document selection)
  return fixes.filterMap id

end Session

end LintBridge
