import LintBridge.Report.Finding
import LintBridge.Severity

/-!
# LintBridge.Diagnostic

What an editor shows: diagnostics, and the quick fixes that it offers for them. Both are the same
whichever format the linter reported in.
-/

namespace LintBridge

open LintBridge.Data

/-- A diagnostic. -/
structure Diagnostic where
  range : Range
  severity : Severity
  message : Str
  code : Str
  source : Str := linterSource
  related : List Related := []
  deriving DecidableEq, Repr

namespace Diagnostic

/-- A diagnostic in a document. -/
def check : Check Diagnostic := .table fun fields =>
  ((((((Checked.build mk).and (fields.required "range" Range.check)).and
    (fields.required "severity" Severity.check)).and
    (fields.required "message" .text)).and
    (fields.required "code" .text)).and
    (fields.optional "source" linterSource .text)).and
    (fields.optional "related_information" [] (.list Related.check))

/-- The diagnostic as a document spells it. -/
def encode (d : Diagnostic) : Value :=
  .table [("range", d.range.encode), ("severity", .int d.severity.number),
    ("message", .string d.message), ("code", .string d.code), ("source", .string d.source),
    ("related_information", .array (d.related.map Related.encode))]

end Diagnostic

/-- A quick fix for one diagnostic of the document `uri`. -/
structure QuickFix where
  title : Str
  uri : Str
  edits : List TextEdit
  diagnostic : Diagnostic
  deriving DecidableEq, Repr

namespace QuickFix

/-- What editors call the new text of an edit. -/
def textField : String := "new_text"

/-- A quick fix in a document. -/
def check : Check QuickFix := .table fun fields =>
  ((((Checked.build mk).and (fields.required "title" .text)).and
    (fields.required "uri" .text)).and
    (fields.required "edits" (.list (TextEdit.check textField)))).and
    (fields.required "diagnostic" Diagnostic.check)

/-- The quick fix as a document spells it. -/
def encode (f : QuickFix) : Value :=
  .table [("title", .string f.title), ("uri", .string f.uri),
    ("edits", .array (f.edits.map (TextEdit.encode textField))),
    ("diagnostic", f.diagnostic.encode)]

end QuickFix

end LintBridge
