import LintBridge.Failure
import LintBridge.Text.Blank

/-!
# LintBridge.Report.Output

Reading the linter's output. Blank output means that there is nothing to report. Anything else must
be a JSON table in the requested format: which format that is follows from the request, so the field
`format` is ignored, and a top-level field that is null counts as absent.
-/

namespace LintBridge

open LintBridge.Data LintBridge.Text

namespace Report

/-- What the kind of a value is called. -/
def kindName : Value → String
  | .null => "NoneType"
  | .bool _ => "bool"
  | .int _ => "int"
  | .float _ => "float"
  | .string _ => "str"
  | .moment => "datetime"
  | .array _ => "list"
  | .table _ => "dict"

/-- Whether a top-level field is read. -/
def isPresent (field : Str × Value) : Bool :=
  match field with
  | (_, .null) => false
  | (key, _) => key != "format"

/-- The report in the fields of the linter's output. -/
def ofFields (format : Format) (fields : Fields) : Except LintError Report :=
  match (check format).run format.schema (.table (fields.filter isPresent)) with
  | .ok report => .ok report
  | .error m => .error (.rejected format (.misfit m))

/-- The report in a JSON text that may nest `room` levels deep. -/
def ofJson (room : Nat) (format : Format) (text : List Char) : Except Failure Report :=
  match Json.parse room text with
  | .error .oversized => .error Fault.oversizedInteger
  | .error .tooDeep => .error Fault.tooDeep
  | .error e => .error (LintError.rejected format (.malformed e))
  | .ok (.table fields) => (ofFields format fields).mapError .lint
  | .ok other => .error (LintError.rejected format (.notTable (kindName other)))

/-- The report in the linter's output, which may nest `room` levels deep. -/
def parse (room : Nat) (format : Format) (output : List Char) : Except Failure Report :=
  if output.all isBlank then .ok (empty format) else ofJson room format output

end Report

end LintBridge
