import LintBridge.Range

/-!
# LintBridge.Report.Violation

Violations, the records of the older report format. A violation names its file, and its place twice:
as lines and columns, both counted from **one**, and as offsets into the text. Here the lines and
columns are held as the `Range` that they stand for; `check` and `encode` do the counting. A fix is
a list of replacements given by offsets.
-/

namespace LintBridge

open LintBridge.Data

/-- Two offsets into a text, in order. -/
structure Stretch where
  start : Nat
  stop : Nat
  ordered : start ≤ stop
  deriving DecidableEq, Repr

/-- A stretch of text and what to put in its place. -/
structure Replacement where
  stretch : Stretch
  text : Str
  deriving DecidableEq, Repr

namespace Replacement

/-- The replacement of the text between two offsets. -/
def between (start stop : Nat) (text : Str) : Checked Replacement :=
  if ordered : start ≤ stop then .ok ⟨⟨start, stop, ordered⟩, text⟩
  else .fail (.rule "replacement offset_start must not exceed offset_end")

/-- A replacement in a document. -/
def check : Check Replacement := .table fun fields =>
  ((((Checked.build between).and (fields.required "offset_start" (.atLeast 0))).and
    (fields.required "offset_end" (.atLeast 0))).and
    (fields.required "new_text" .text)).settle

/-- The replacement as a document spells it. -/
def encode (r : Replacement) : Value :=
  .table [("offset_start", .int r.stretch.start), ("offset_end", .int r.stretch.stop),
    ("new_text", .string r.text)]

end Replacement

/-- Replacements that together mend a violation. -/
structure Fix where
  description : Str
  replacements : List Replacement
  deriving DecidableEq, Repr

namespace Fix

/-- A fix in a document. -/
def check : Check Fix := .table fun fields =>
  ((Checked.build mk).and (fields.required "description" .text)).and
    (fields.optional "replacements" [] (.list Replacement.check))

/-- The fix as a document spells it. -/
def encode (f : Fix) : Value :=
  .table [("description", .string f.description),
    ("replacements", .array (f.replacements.map Replacement.encode))]

end Fix

/-- One violation of a rule. -/
structure Violation where
  rule : Str
  severity : Str
  message : Str
  file : Str
  range : Range
  stretch : Stretch
  suggestion : Option Str
  fix : Option Fix
  deriving DecidableEq, Repr

namespace Violation

/-- A number counted from one, as the same number counted from zero. -/
def ordinal : Check Nat := fun v =>
  (Check.atLeast 1 v).map (· - 1)

/-- The violation with the given parts, lines and columns being counted from zero. Its lines, its
columns on a single line and its offsets must come in order. -/
def ofParts (rule severity message file : Str) (startLine stopLine startColumn stopColumn : Nat)
    (start stop : Nat) (suggestion : Option Str) (fix : Option Fix) : Checked Violation :=
  if lines : startLine ≤ stopLine then
    if columns : startLine = stopLine → startColumn ≤ stopColumn then
      if offsets : start ≤ stop then
        .ok {
          rule, severity, message, file, suggestion, fix
          range := ⟨⟨startLine, startColumn⟩, ⟨stopLine, stopColumn⟩, by
            simp only [Position.le_def]
            omega⟩
          stretch := ⟨start, stop, offsets⟩ }
      else .fail (.rule "violation offset_start must not exceed offset_end")
    else
      .fail (.rule "violation column_start must not exceed column_end on a single line")
  else .fail (.rule "violation line_start must not exceed line_end")

/-- A violation in a document. Older reports leave the offsets out. -/
def check : Check Violation := .table fun fields =>
  (((((((((((((Checked.build ofParts).and (fields.required "rule_id" .text)).and
    (fields.optional "severity" "warning" .text)).and
    (fields.required "message" .text)).and
    (fields.required "file" .text)).and
    (fields.required "line_start" ordinal)).and
    (fields.required "line_end" ordinal)).and
    (fields.required "column_start" ordinal)).and
    (fields.required "column_end" ordinal)).and
    (fields.optional "offset_start" 0 (.atLeast 0))).and
    (fields.optional "offset_end" 0 (.atLeast 0))).and
    (fields.optional "suggestion" none (.nullable .text))).and
    (fields.optional "fix" none (.nullable Fix.check))).settle

/-- The violation as a document spells it. -/
def encode (v : Violation) : Value :=
  .table [("rule_id", .string v.rule), ("severity", .string v.severity),
    ("message", .string v.message), ("file", .string v.file),
    ("line_start", .int (v.range.start.line + 1)), ("line_end", .int (v.range.stop.line + 1)),
    ("column_start", .int (v.range.start.character + 1)),
    ("column_end", .int (v.range.stop.character + 1)),
    ("offset_start", .int v.stretch.start), ("offset_end", .int v.stretch.stop),
    ("suggestion", (v.suggestion.map fun s => .string s).getD .null),
    ("fix", (v.fix.map Fix.encode).getD .null)]

/-- Whether the violation carries at least one replacement. -/
def hasFix (v : Violation) : Bool :=
  match v.fix with
  | some fix => !fix.replacements.isEmpty
  | none => false

end Violation

end LintBridge
