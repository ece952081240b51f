import LintBridge.Diagnostic
import LintBridge.Document.Edits
import LintBridge.Failure

/-!
# LintBridge.Record.Fixing

From a diagnostic back to the record that it shows. Editors hand diagnostics back as they please, so
a record is recognised by its code and its exact range, and it must lie where the user is looking.
The record found is the one whose fix is offered.
-/

namespace LintBridge

namespace Record

/-- Whether the record is the one behind a diagnostic with the given code and range, and shares a
position with the selection. -/
def isBehind (code : Str) (range selection : Range) (r : Record) : Bool :=
  r.code = code && r.range = range && r.range.intersects selection

/-- The first record behind a diagnostic. -/
def behind? (code : Str) (range selection : Range) (records : List Record) : Option Record :=
  records.find? (isBehind code range selection)

/-- The record behind a diagnostic, if it carries a fix. -/
def fixFor? (code : Str) (range selection : Range) (records : List Record) : Option Record :=
  (behind? code range selection records).filter hasFix

/-- The title under which the fix of the record is offered. -/
def fixTitle : Record → Str
  | violation v =>
    match v.fix with
    | some fix => "Fix: " ++ fix.description
    | none => "Fix: " ++ v.rule
  | finding f =>
    match f.action with
    | some action => action.title
    | none => "Fix: " ++ f.code

end Record

/-- The range between two offsets of a text. -/
def Content.rangeBetween (content : Content) (start stop : Nat) : Except Data.Misfit Range :=
  Range.ofPositions (content.positionAt start) (content.positionAt stop)

/-- The edit of a text that a replacement stands for. -/
def Content.editOf (content : Content) (r : Replacement) : Except Data.Misfit TextEdit :=
  (content.rangeBetween r.stretch.start r.stretch.stop).map fun range => ⟨range, r.text⟩

/-- The edits that make up the fix of a record. Offsets are places in the text as it is now. -/
def Record.edits (content : Content) : Record → Except Data.Misfit (List TextEdit)
  | violation v =>
    match v.fix with
    | some fix => fix.replacements.mapM content.editOf
    | none => .ok []
  | finding f =>
    match f.action with
    | some action => .ok action.edits
    | none => .ok []

end LintBridge
