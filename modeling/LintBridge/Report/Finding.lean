import LintBridge.Range

/-!
# LintBridge.Report.Finding

Findings, the records of the newer report format. A finding has its range in the editor's terms,
counted from zero, and a code action may carry edits that are ready to be applied. The file that a
finding is about is not part of it: reports list findings by file.
-/

namespace LintBridge

open LintBridge.Data

/-- A range of a file, which is named by a path or a URI. -/
structure Location where
  uri : Str
  range : Range
  deriving DecidableEq, Repr

namespace Location

/-- A location in a document. -/
def check : Check Location := .table fun fields =>
  ((Checked.build mk).and (fields.required "uri" .text)).and (fields.required "range" Range.check)

/-- The location as a document spells it. -/
def encode (l : Location) : Value :=
  .table [("uri", .string l.uri), ("range", l.range.encode)]

end Location

/-- A remark on another place. -/
structure Related where
  location : Location
  message : Str
  deriving DecidableEq, Repr

namespace Related

/-- A remark in a document. -/
def check : Check Related := .table fun fields =>
  ((Checked.build mk).and (fields.required "location" Location.check)).and
    (fields.required "message" .text)

/-- The remark as a document spells it. -/
def encode (r : Related) : Value :=
  .table [("location", r.location.encode), ("message", .string r.message)]

end Related

/-- A range and what to put in its place. -/
structure TextEdit where
  range : Range
  text : Str
  deriving DecidableEq, Repr

namespace TextEdit

/-- An edit in a document that calls the new text `name`. -/
def check (name : String) : Check TextEdit := .table fun fields =>
  ((Checked.build mk).and (fields.required "range" Range.check)).and (fields.required name .text)

/-- The edit as a document spells it that calls the new text `name`. -/
def encode (name : String) (e : TextEdit) : Value :=
  .table [("range", e.range.encode), (name, .string e.text)]

end TextEdit

/-- What reports call the new text of an edit. -/
def CodeAction.textField : String := "replacement_text"

/-- Edits that together mend a finding. -/
structure CodeAction where
  title : Str
  edits : List TextEdit
  deriving DecidableEq, Repr

namespace CodeAction

/-- A code action in a document. -/
def check : Check CodeAction := .table fun fields =>
  ((Checked.build mk).and (fields.required "title" .text)).and
    (fields.optional "edits" [] (.list (TextEdit.check textField)))

/-- The code action as a document spells it. -/
def encode (a : CodeAction) : Value :=
  .table [("title", .string a.title), ("edits", .array (a.edits.map (TextEdit.encode textField)))]

end CodeAction

/-- The source that names itself the linter. -/
def linterSource : String := "nu-lint"

/-- One finding. -/
structure Finding where
  range : Range
  severity : Int
  code : Str
  source : Str
  message : Str
  related : Option (List Related)
  action : Option CodeAction
  deriving DecidableEq, Repr

namespace Finding

/-- A finding in a document. -/
def check : Check Finding := .table fun fields =>
  (((((((Checked.build mk).and (fields.required "range" Range.check)).and
    (fields.optional "severity" 2 .int)).and
    (fields.required "code" .text)).and
    (fields.optional "source" linterSource .text)).and
    (fields.required "message" .text)).and
    (fields.optional "related_information" none (.nullable (.list Related.check)))).and
    (fields.optional "code_action" none (.nullable CodeAction.check))

/-- The finding as a document spells it. -/
def encode (f : Finding) : Value :=
  .table [("range", f.range.encode), ("severity", .int f.severity), ("code", .string f.code),
    ("source", .string f.source), ("message", .string f.message),
    ("related_information",
      (f.related.map fun all => .array (all.map Related.encode)).getD .null),
    ("code_action", (f.action.map CodeAction.encode).getD .null)]

/-- Whether the finding carries at least one edit. -/
def hasFix (f : Finding) : Bool :=
  match f.action with
  | some action => !action.edits.isEmpty
  | none => false

end Finding

end LintBridge
