import LintBridge.Report.Finding
import LintBridge.Report.Violation

/-!
# LintBridge.Report

What the linter reports. It knows two formats: the legacy one lists violations, the ranged one
lists findings by file. `Report.check` reads either, and `Report.encode` spells a report out with
every field, so that reading it again yields the same report.
-/

namespace LintBridge

open LintBridge.Data

/-- The two report formats. -/
inductive Format where
  | legacy
  | ranged
  deriving DecidableEq, Repr

namespace Format

/-- The name by which the linter is asked for the format. -/
def name : Format → String
  | legacy => "json"
  | ranged => "vscode-json"

/-- All formats. -/
def all : List Format := [legacy, ranged]

/-- The format of the given name. -/
def ofName? (s : String) : Option Format :=
  all.find? (·.name = s)

@[simp] theorem ofName?_name (f : Format) : ofName? f.name = some f := by
  cases f <;> rfl

/-- What the schema of the format's reports is called. -/
def schema : Format → String
  | legacy => "LegacyLintResult"
  | ranged => "RangeLintResult"

end Format

/-- Counts that accompany a report. -/
structure Summary where
  errors : Int := 0
  warnings : Int := 0
  info : Int := 0
  filesChecked : Int := 0
  deriving DecidableEq, Repr

namespace Summary

/-- A summary in a document. -/
def check : Check Summary := .table fun fields =>
  ((((Checked.build mk).and (fields.optional "errors" 0 .int)).and
    (fields.optional "warnings" 0 .int)).and
    (fields.optional "info" 0 .int)).and
    (fields.optional "files_checked" 0 .int)

/-- The summary as a document spells it. -/
def encode (s : Summary) : Value :=
  .table [("errors", .int s.errors), ("warnings", .int s.warnings), ("info", .int s.info),
    ("files_checked", .int s.filesChecked)]

end Summary

/-- A record of either format. -/
inductive Record where
  | violation (v : Violation)
  | finding (f : Finding)
  deriving DecidableEq, Repr

namespace Record

/-- The rule that the record is about. -/
def code : Record → Str
  | violation v => v.rule
  | finding f => f.code

/-- Where the record is. -/
def range : Record → Range
  | violation v => v.range
  | finding f => f.range

/-- Whether the record carries at least one edit. -/
def hasFix : Record → Bool
  | violation v => v.hasFix
  | finding f => f.hasFix

end Record

/-- A report. The files of a ranged one are listed in the order in which it names them. -/
inductive Report where
  | legacy (violations : List Violation) (summary : Summary)
  | ranged (files : List (Str × List Finding)) (summary : Summary)
  deriving DecidableEq, Repr

namespace Report

/-- The format of a report. -/
def format : Report → Format
  | legacy .. => .legacy
  | ranged .. => .ranged

/-- The counts of a report. -/
def summary : Report → Summary
  | legacy _ summary => summary
  | ranged _ summary => summary

/-- The report that has nothing to tell. -/
def empty : Format → Report
  | .legacy => legacy [] {}
  | .ranged => ranged [] {}

/-- A report in a document. The document may name its format, which must be the expected one. -/
def check (format : Format) : Check Report := .table fun fields =>
  match format with
  | .legacy =>
    (((Checked.build fun () => legacy).and (fields.optional "format" () (.word format.name))).and
      (fields.optional "violations" [] (.list Violation.check))).and
      (fields.optional "summary" {} Summary.check)
  | .ranged =>
    (((Checked.build fun () => ranged).and (fields.optional "format" () (.word format.name))).and
      (fields.optional "diagnostics" [] (.mapping (.list Finding.check)))).and
      (fields.optional "summary" {} Summary.check)

/-- The report as a document spells it. -/
def encode : Report → Value
  | legacy violations summary =>
    .table [("format", .string Format.legacy.name),
      ("violations", .array (violations.map Violation.encode)), ("summary", summary.encode)]
  | ranged files summary =>
    .table [("format", .string Format.ranged.name),
      ("diagnostics", .table (files.map fun (file, findings) =>
        (file, .array (findings.map Finding.encode)))), ("summary", summary.encode)]

end Report

end LintBridge
