import LintBridge.Proofs.Meaning
import LintBridge.Proofs.Reading
import LintBridge.Proofs.RoundTrip
import Mathlib.Data.List.Nodup

/-!
# LintBridge.Proofs.Conformity

What the linter's output says when it is read. For each kind of record a relation tells which fields
describe which record and within which bounds (`DescribedBy`), element by element and at every
depth, and the check for that kind decides the relation. So a report comes out exactly where the
output describes that report as a whole: one element that is out of bounds, or not of the schema,
and there is none.

Main result: `Report.parse_describes`.
-/

namespace LintBridge

open LintBridge.Data

theorem mapError_eq_ok {α ε ε' : Type} {f : ε → ε'} {x : Except ε α} {a : α} :
    x.mapError f = .ok a ↔ x = .ok a := by
  cases x with
  | error e => simp [Except.mapError]
  | ok b => simp [Except.mapError]

/-! ### Ranges -/

/-- The fields give a line and a character, neither of them negative. -/
structure Position.DescribedBy (fields : Fields) (p : Position) : Prop where
  line : fields.Gives "line" .number (p.line : Int)
  character : fields.Gives "character" .number (p.character : Int)

theorem decides_position : Position.check.Decides (.table Position.DescribedBy) := by
  refine Check.decides_table fun fields p => ?_
  have hpair := @Checked.pair_eq_ok _ _ _ Position.mk Position.line Position.character
  rw [hpair rfl (fun _ _ => rfl) (fun _ _ => rfl), Check.required_natural, Check.required_natural]
  exact ⟨fun h => ⟨h.1, h.2⟩, fun h => ⟨h.line, h.character⟩⟩

/-- The fields give two positions. That they come in order is part of the range. -/
structure Range.DescribedBy (fields : Fields) (r : Range) : Prop where
  start : fields.Gives "start" (.table Position.DescribedBy) r.start
  stop : fields.Gives "end" (.table Position.DescribedBy) r.stop

theorem Range.between_eq_ok {start stop : Position} {r : Range} :
    between start stop = .ok r ↔ r.start = start ∧ r.stop = stop := by
  unfold between
  split
  next h =>
    rw [Except.ok.injEq]
    constructor
    · rintro rfl
      exact ⟨rfl, rfl⟩
    · rintro ⟨rfl, rfl⟩
      rfl
  next h =>
    refine iff_of_false (Checked.fail_ne_ok _ _) ?_
    rintro ⟨rfl, rfl⟩
    exact absurd r.ordered h

theorem decides_range : Range.check.Decides (.table Range.DescribedBy) := by
  refine Check.decides_table fun fields r => ?_
  have hstart := decides_position.required fields "start"
  have hstop := decides_position.required fields "end"
  simp only [Checked.settle_eq_ok, Checked.and_eq_ok, Checked.build, Except.ok.injEq, hstart, hstop,
    exists_and_left, ↓existsAndEq, and_assoc, true_and]
  constructor
  · rintro ⟨start, hstart, stop, hstop, hbetween⟩
    obtain ⟨rfl, rfl⟩ := Range.between_eq_ok.1 hbetween
    exact ⟨hstart, hstop⟩
  · rintro ⟨hstart, hstop⟩
    exact ⟨r.start, hstart, r.stop, hstop, Range.between_eq_ok.2 ⟨rfl, rfl⟩⟩

theorem Position.ofCoordinates_eq_ok {line character : Int} {p : Position} :
    ofCoordinates line character = .ok p ↔
      (p.line : Int) = line ∧ (p.character : Int) = character := by
  unfold ofCoordinates
  rw [Check.run_eq_ok, decides_position, Meaning.table_table]
  constructor
  · rintro ⟨hline, hcharacter⟩
    exact ⟨(Fields.gives_int rfl).1 hline, (Fields.gives_int rfl).1 hcharacter⟩
  · rintro ⟨hline, hcharacter⟩
    exact ⟨(Fields.gives_int rfl).2 hline, (Fields.gives_int rfl).2 hcharacter⟩

/-- The coordinates of a range define it. -/
theorem Range.ofCoordinates_eq_ok {startLine startCharacter stopLine stopCharacter : Int}
    {r : Range} : ofCoordinates startLine startCharacter stopLine stopCharacter = .ok r ↔
      ((r.start.line : Int) = startLine ∧ (r.start.character : Int) = startCharacter) ∧
        (r.stop.line : Int) = stopLine ∧ (r.stop.character : Int) = stopCharacter := by
  unfold ofCoordinates
  simp only [bind_eq_ok, Position.ofCoordinates_eq_ok]
  constructor
  · rintro ⟨start, hstart, stop, hstop, hr⟩
    obtain ⟨rfl, rfl⟩ := Range.between_eq_ok.1 (mapError_eq_ok.1 hr)
    exact ⟨hstart, hstop⟩
  · rintro ⟨hstart, hstop⟩
    exact ⟨r.start, hstart, r.stop, hstop, mapError_eq_ok.2 (Range.between_eq_ok.2 ⟨rfl, rfl⟩)⟩

/-! ### Parts of records -/

/-- The fields give two offsets in order, neither of them negative, and a text. -/
structure Replacement.DescribedBy (fields : Fields) (r : Replacement) : Prop where
  start : fields.Gives "offset_start" .number (r.stretch.start : Int)
  stop : fields.Gives "offset_end" .number (r.stretch.stop : Int)
  text : fields.Gives "new_text" .text r.text

theorem Replacement.between_eq_ok {start stop : Nat} {text : Str} {r : Replacement} :
    between start stop text = .ok r ↔
      r.stretch.start = start ∧ r.stretch.stop = stop ∧ r.text = text := by
  unfold between
  split
  next h =>
    rw [Except.ok.injEq]
    constructor
    · rintro rfl
      exact ⟨rfl, rfl, rfl⟩
    · rintro ⟨rfl, rfl, rfl⟩
      rfl
  next h =>
    refine iff_of_false (Checked.fail_ne_ok _ _) ?_
    rintro ⟨rfl, rfl, rfl⟩
    exact absurd r.stretch.ordered h

theorem decides_replacement : Replacement.check.Decides (.table Replacement.DescribedBy) := by
  refine Check.decides_table fun fields r => ?_
  have htext := Check.decides_text.required fields "new_text"
  simp only [Checked.settle_eq_ok, Checked.and_eq_ok, Checked.build, Except.ok.injEq,
    Check.required_natural, htext, exists_and_left, ↓existsAndEq, and_assoc, true_and]
  constructor
  · rintro ⟨start, hstart, stop, hstop, text, htext, hbetween⟩
    obtain ⟨rfl, rfl, rfl⟩ := Replacement.between_eq_ok.1 hbetween
    exact ⟨hstart, hstop, htext⟩
  · rintro ⟨hstart, hstop, htext⟩
    exact ⟨r.stretch.start, hstart, r.stretch.stop, hstop, r.text, htext,
      Replacement.between_eq_ok.2 ⟨rfl, rfl, rfl⟩⟩

/-- The fields give a text and an array of replacements, which may be left out. -/
structure Fix.DescribedBy (fields : Fields) (f : Fix) : Prop where
  description : fields.Gives "description" .text f.description
  replacements : fields.MayGive "replacements" [] (.list (.table Replacement.DescribedBy))
    f.replacements

theorem decides_fix : Fix.check.Decides (.table Fix.DescribedBy) := by
  refine Check.decides_table fun fields f => ?_
  have hpair := @Checked.pair_eq_ok _ _ _ Fix.mk Fix.description Fix.replacements
  rw [hpair rfl (fun _ _ => rfl) (fun _ _ => rfl), Check.decides_text.required,
    decides_replacement.list.optional]
  exact ⟨fun h => ⟨h.1, h.2⟩, fun h => ⟨h.description, h.replacements⟩⟩

/-- The fields give a text and a range. -/
structure Location.DescribedBy (fields : Fields) (l : Location) : Prop where
  uri : fields.Gives "uri" .text l.uri
  range : fields.Gives "range" (.table Range.DescribedBy) l.range

theorem decides_location : Location.check.Decides (.table Location.DescribedBy) := by
  refine Check.decides_table fun fields l => ?_
  have hpair := @Checked.pair_eq_ok _ _ _ Location.mk Location.uri Location.range
  rw [hpair rfl (fun _ _ => rfl) (fun _ _ => rfl), Check.decides_text.required,
    decides_range.required]
  exact ⟨fun h => ⟨h.1, h.2⟩, fun h => ⟨h.uri, h.range⟩⟩

/-- The fields give a location and a text. -/
structure Related.DescribedBy (fields : Fields) (r : Related) : Prop where
  location : fields.Gives "location" (.table Location.DescribedBy) r.location
  message : fields.Gives "message" .text r.message

theorem decides_related : Related.check.Decides (.table Related.DescribedBy) := by
  refine Check.decides_table fun fields r => ?_
  have hpair := @Checked.pair_eq_ok _ _ _ Related.mk Related.location Related.message
  rw [hpair rfl (fun _ _ => rfl) (fun _ _ => rfl), decides_location.required,
    Check.decides_text.required]
  exact ⟨fun h => ⟨h.1, h.2⟩, fun h => ⟨h.location, h.message⟩⟩

/-- The fields give a range and a text, which is called `name`. -/
structure TextEdit.DescribedBy (name : String) (fields : Fields) (e : TextEdit) : Prop where
  range : fields.Gives "range" (.table Range.DescribedBy) e.range
  text : fields.Gives name .text e.text

theorem decides_textEdit (name : String) :
    (TextEdit.check name).Decides (.table (TextEdit.DescribedBy name)) := by
  refine Check.decides_table fun fields e => ?_
  have hpair := @Checked.pair_eq_ok _ _ _ TextEdit.mk TextEdit.range TextEdit.text
  rw [hpair rfl (fun _ _ => rfl) (fun _ _ => rfl), decides_range.required,
    Check.decides_text.required]
  exact ⟨fun h => ⟨h.1, h.2⟩, fun h => ⟨h.range, h.text⟩⟩

/-- The fields give a text and an array of edits, which may be left out. -/
structure CodeAction.DescribedBy (fields : Fields) (a : CodeAction) : Prop where
  title : fields.Gives "title" .text a.title
  edits : fields.MayGive "edits" [] (.list (.table (TextEdit.DescribedBy textField))) a.edits

theorem decides_codeAction : CodeAction.check.Decides (.table CodeAction.DescribedBy) := by
  refine Check.decides_table fun fields a => ?_
  have hpair := @Checked.pair_eq_ok _ _ _ CodeAction.mk CodeAction.title CodeAction.edits
  rw [hpair rfl (fun _ _ => rfl) (fun _ _ => rfl), Check.decides_text.required,
    (decides_textEdit _).list.optional]
  exact ⟨fun h => ⟨h.1, h.2⟩, fun h => ⟨h.title, h.edits⟩⟩

/-- The fields give four counts, each of which may be left out. -/
structure Summary.DescribedBy (fields : Fields) (s : Summary) : Prop where
  errors : fields.MayGive "errors" 0 .number s.errors
  warnings : fields.MayGive "warnings" 0 .number s.warnings
  info : fields.MayGive "info" 0 .number s.info
  filesChecked : fields.MayGive "files_checked" 0 .number s.filesChecked

theorem decides_summary : Summary.check.Decides (.table Summary.DescribedBy) := by
  refine Check.decides_table fun fields s => ?_
  have hcount := Check.decides_int.optional fields
  simp only [Checked.and_eq_ok, Checked.build, Except.ok.injEq, hcount, exists_and_left,
    ↓existsAndEq, and_assoc, true_and]
  constructor
  · rintro ⟨errors, herrors, warnings, hwarnings, info, hinfo, filesChecked, hfilesChecked, rfl⟩
    exact ⟨herrors, hwarnings, hinfo, hfilesChecked⟩
  · rintro ⟨herrors, hwarnings, hinfo, hfilesChecked⟩
    exact ⟨s.errors, herrors, s.warnings, hwarnings, s.info, hinfo, s.filesChecked, hfilesChecked,
      rfl⟩

/-! ### Violations -/

/-- The numbers by which a report says where a violation is. -/
structure Span where
  lineStart : Int
  lineEnd : Int
  columnStart : Int
  columnEnd : Int
  offsetStart : Int
  offsetEnd : Int

namespace Span

/-- The fields give the numbers. Only the offsets may be left out. -/
structure GivenBy (fields : Fields) (s : Span) : Prop where
  lineStart : fields.Gives "line_start" .number s.lineStart
  lineEnd : fields.Gives "line_end" .number s.lineEnd
  columnStart : fields.Gives "column_start" .number s.columnStart
  columnEnd : fields.Gives "column_end" .number s.columnEnd
  offsetStart : fields.MayGive "offset_start" 0 .number s.offsetStart
  offsetEnd : fields.MayGive "offset_end" 0 .number s.offsetEnd

/-- Lines and columns are counted from one and offsets from zero, and each comes in order, columns
where there is only one line. -/
structure InBounds (s : Span) : Prop where
  lineStart : 1 ≤ s.lineStart
  lines : s.lineStart ≤ s.lineEnd
  columnStart : 1 ≤ s.columnStart
  columnEnd : 1 ≤ s.columnEnd
  columns : s.lineStart = s.lineEnd → s.columnStart ≤ s.columnEnd
  offsetStart : 0 ≤ s.offsetStart
  offsets : s.offsetStart ≤ s.offsetEnd

/-- The violation is where the numbers say. Its range is defined, and one below them. -/
structure Marks (s : Span) (x : Violation) : Prop where
  range : Range.ofCoordinates (s.lineStart - 1) (s.columnStart - 1) (s.lineEnd - 1)
    (s.columnEnd - 1) = .ok x.range
  startLine : (x.range.start.line : Int) = s.lineStart - 1
  startColumn : (x.range.start.character : Int) = s.columnStart - 1
  stopLine : (x.range.stop.line : Int) = s.lineEnd - 1
  stopColumn : (x.range.stop.character : Int) = s.columnEnd - 1
  offsetStart : (x.stretch.start : Int) = s.offsetStart
  offsetEnd : (x.stretch.stop : Int) = s.offsetEnd

/-- The numbers that say where the violation is. -/
def ofViolation (x : Violation) : Span where
  lineStart := x.range.start.line + 1
  lineEnd := x.range.stop.line + 1
  columnStart := x.range.start.character + 1
  columnEnd := x.range.stop.character + 1
  offsetStart := x.stretch.start
  offsetEnd := x.stretch.stop

variable {x : Violation} {s : Span}

theorem inBounds_ofViolation (x : Violation) : (ofViolation x).InBounds := by
  have hordered := Position.le_def.1 x.range.ordered
  have hoffsets := x.stretch.ordered
  constructor <;> simp only [ofViolation] <;> omega

theorem marks_iff : s.Marks x ↔ s = ofViolation x := by
  constructor
  · rintro ⟨-, hstartLine, hstartColumn, hstopLine, hstopColumn, hstart, hstop⟩
    obtain ⟨lineStart, lineEnd, columnStart, columnEnd, offsetStart, offsetEnd⟩ := s
    simp only [ofViolation, mk.injEq] at *
    omega
  · rintro rfl
    have hrange : Range.ofCoordinates _ _ _ _ = .ok x.range :=
      Range.ofCoordinates_eq_ok.2 ⟨⟨rfl, rfl⟩, rfl, rfl⟩
    constructor <;> simp only [ofViolation, Int.add_sub_cancel]
    exact hrange

end Span

/-- The fields give four texts, of which the severity may be left out, numbers that say where the
violation is and are in bounds, and perhaps a suggestion and a fix. -/
structure Violation.DescribedBy (fields : Fields) (x : Violation) : Prop where
  rule : fields.Gives "rule_id" .text x.rule
  severity : fields.MayGive "severity" ("warning" : Str) .text x.severity
  message : fields.Gives "message" .text x.message
  file : fields.Gives "file" .text x.file
  span : ∃ s : Span, s.GivenBy fields ∧ s.InBounds ∧ s.Marks x
  suggestion : fields.MayGive "suggestion" none (.nullable .text) x.suggestion
  fix : fields.MayGive "fix" none (.nullable (.table Fix.DescribedBy)) x.fix

/-- What is held of a place is one below what is reported. -/
theorem decides_ordinal : Violation.ordinal.Decides fun v n => Meaning.number v (n + 1) := by
  intro v n
  have hone := Check.decides_atLeast 1 v
  unfold Violation.ordinal
  cases hv : Check.atLeast 1 v with
  | error issues =>
    refine ⟨fun h => absurd h (by simp [Except.map]), fun h => ?_⟩
    have hnot := (hone (n + 1)).2 ⟨by push_cast; exact h, Nat.le_add_left 1 n⟩
    exact absurd (hv.symm.trans hnot) (by simp)
  | ok k =>
    obtain ⟨hk, hpos⟩ := (hone k).1 hv
    show (.ok (k - 1) : Checked Nat) = .ok n ↔ _
    rw [Except.ok.injEq]
    constructor
    · rintro rfl
      rwa [Int.natCast_sub hpos, Int.natCast_one, Int.sub_add_cancel]
    · intro hn
      have heq : (k : Int) = n + 1 := Except.ok.inj (hk.symm.trans hn)
      omega

theorem Violation.ofParts_eq_ok {rule severity message file : Str}
    {startLine stopLine startColumn stopColumn start stop : Nat} {suggestion : Option Str}
    {fix : Option Fix} {x : Violation} :
    ofParts rule severity message file startLine stopLine startColumn stopColumn start stop
        suggestion fix = .ok x ↔
      (x.rule = rule ∧ x.severity = severity ∧ x.message = message ∧ x.file = file) ∧
      (x.range.start = ⟨startLine, startColumn⟩ ∧ x.range.stop = ⟨stopLine, stopColumn⟩) ∧
      (x.stretch.start = start ∧ x.stretch.stop = stop) ∧ x.suggestion = suggestion ∧
      x.fix = fix := by
  constructor
  · intro h
    unfold ofParts at h
    split at h
    · split at h
      · split at h
        · obtain rfl := Except.ok.inj h
          exact ⟨⟨rfl, rfl, rfl, rfl⟩, ⟨rfl, rfl⟩, ⟨rfl, rfl⟩, rfl, rfl⟩
        · exact absurd h (Checked.fail_ne_ok _ _)
      · exact absurd h (Checked.fail_ne_ok _ _)
    · exact absurd h (Checked.fail_ne_ok _ _)
  · rintro ⟨⟨rfl, rfl, rfl, rfl⟩, ⟨hstart, hstop⟩, ⟨rfl, rfl⟩, rfl, rfl⟩
    have hself := x.ofParts_self
    rw [hstart, hstop] at hself
    exact hself

theorem decides_violation : Violation.check.Decides (.table Violation.DescribedBy) := by
  refine Check.decides_table fun fields x => ?_
  have htext := Check.decides_text.required fields
  have hseverity := Check.decides_text.optional fields "severity" "warning"
  have hplace (name : String) (n : Nat) : fields.required name Violation.ordinal = .ok n ↔
      fields.Gives name .number ((n : Int) + 1) :=
    decides_ordinal.required fields name n
  have hsuggestion := Check.decides_text.nullable.optional fields "suggestion" none
  have hfix := decides_fix.nullable.optional fields "fix" none
  simp only [Checked.settle_eq_ok, Checked.and_eq_ok, Checked.build, Except.ok.injEq, htext,
    hseverity, hplace, Check.optional_natural, hsuggestion, hfix, exists_and_left, ↓existsAndEq,
    and_assoc, true_and]
  constructor
  · rintro ⟨rule, hrule, severity, hseverity, message, hmessage, file, hfile, startLine, hstartLine,
      stopLine, hstopLine, startColumn, hstartColumn, stopColumn, hstopColumn, start, hstart, stop,
      hstop, suggestion, hsuggestion, fix, hfix, hparts⟩
    obtain ⟨⟨rfl, rfl, rfl, rfl⟩, ⟨hfrom, hto⟩, ⟨rfl, rfl⟩, rfl, rfl⟩ :=
      Violation.ofParts_eq_ok.1 hparts
    -- the numbers of the report are those of the violation, whose range is one below them
    have hgiven : (Span.ofViolation x).GivenBy fields := by
      simp only [Span.ofViolation, hfrom, hto]
      exact ⟨hstartLine, hstopLine, hstartColumn, hstopColumn, hstart, hstop⟩
    exact ⟨hrule, hseverity, hmessage, hfile,
      ⟨_, hgiven, Span.inBounds_ofViolation x, Span.marks_iff.2 rfl⟩, hsuggestion, hfix⟩
  · rintro ⟨hrule, hseverity, hmessage, hfile, ⟨s, hgiven, -, hmarks⟩, hsuggestion, hfix⟩
    obtain rfl := Span.marks_iff.1 hmarks
    exact ⟨x.rule, hrule, x.severity, hseverity, x.message, hmessage, x.file, hfile,
      x.range.start.line, hgiven.lineStart, x.range.stop.line, hgiven.lineEnd,
      x.range.start.character, hgiven.columnStart, x.range.stop.character, hgiven.columnEnd,
      x.stretch.start, hgiven.offsetStart, x.stretch.stop, hgiven.offsetEnd, x.suggestion,
      hsuggestion, x.fix, hfix, x.ofParts_self⟩

/-! ### Findings -/

/-- The fields give a range and two texts, perhaps a severity and a source, and perhaps remarks on
other places and a code action. -/
structure Finding.DescribedBy (fields : Fields) (f : Finding) : Prop where
  range : fields.Gives "range" (.table Range.DescribedBy) f.range
  severity : fields.MayGive "severity" 2 .number f.severity
  code : fields.Gives "code" .text f.code
  source : fields.MayGive "source" (linterSource : Str) .text f.source
  message : fields.Gives "message" .text f.message
  related : fields.MayGive "related_information" none
    (.nullable (.list (.table Related.DescribedBy))) f.related
  action : fields.MayGive "code_action" none (.nullable (.table CodeAction.DescribedBy)) f.action

theorem decides_finding : Finding.check.Decides (.table Finding.DescribedBy) := by
  refine Check.decides_table fun fields f => ?_
  have hrange := decides_range.required fields "range"
  have hseverity := Check.decides_int.optional fields "severity" 2
  have htext := Check.decides_text.required fields
  have hsource := Check.decides_text.optional fields "source" linterSource
  have hrelated := decides_related.list.nullable.optional fields "related_information" none
  have haction := decides_codeAction.nullable.optional fields "code_action" none
  simp only [Checked.and_eq_ok, Checked.build, Except.ok.injEq, hrange, hseverity, htext, hsource,
    hrelated, haction, exists_and_left, ↓existsAndEq, and_assoc, true_and]
  constructor
  · rintro ⟨range, hrange, severity, hseverity, code, hcode, source, hsource, message, hmessage,
      related, hrelated, action, haction, rfl⟩
    exact ⟨hrange, hseverity, hcode, hsource, hmessage, hrelated, haction⟩
  · rintro ⟨hrange, hseverity, hcode, hsource, hmessage, hrelated, haction⟩
    exact ⟨f.range, hrange, f.severity, hseverity, f.code, hcode, f.source, hsource, f.message,
      hmessage, f.related, hrelated, f.action, haction, rfl⟩

/-! ### Reports -/

namespace Report

variable {room : Nat} {format : Format} {report : Report} {fields : Fields} {output : List Char}

/-- The fields describe the report, whatever they say about its format: record by record in the
order of the array, and file by file in the order of the table, each file once. -/
def DescribedBy (fields : Fields) : Report → Prop
  | legacy violations summary =>
    fields.MayGiveUnlessNull "violations" [] (.list (.table Violation.DescribedBy)) violations ∧
      fields.MayGiveUnlessNull "summary" {} (.table Summary.DescribedBy) summary
  | ranged files summary =>
    (files.map (·.1)).Nodup ∧
      fields.MayGiveUnlessNull "diagnostics" [] (.mapping (.list (.table Finding.DescribedBy)))
        files ∧
      fields.MayGiveUnlessNull "summary" {} (.table Summary.DescribedBy) summary

/-- Of the fields at the top, those that are null are not read. -/
theorem get?_filter_isPresent (hkeyed : fields.Keyed) {name : String} (hname : name ≠ "format") :
    Fields.get? (fields.filter isPresent) name = (fields.get? name).filter (!·.isNull) := by
  have hpresent (v : Value) : isPresent ((name : Str), v) = !v.isNull := by
    cases v <;> simp [isPresent, Value.isNull, hname]
  have hfiltered : ((fields.filter isPresent).map (·.1)).Nodup :=
    hkeyed.nodup.sublist (List.filter_sublist.map _)
  refine Option.ext fun v => ?_
  rw [Fields.get?_eq_some_iff hfiltered, List.mem_filter, hpresent,
    ← Fields.get?_eq_some_iff hkeyed.nodup, Option.filter_eq_some_iff]

theorem optional_filter_isPresent {α : Type} {check : Check α} {means : Meaning α}
    (h : check.Decides means) (hkeyed : fields.Keyed) {name : String} (hname : name ≠ "format")
    (default a : α) : Fields.optional (fields.filter isPresent) name default check = .ok a ↔
      fields.MayGiveUnlessNull name default means a := by
  rw [h.optional, Fields.MayGive, Fields.Gives, get?_filter_isPresent hkeyed hname]
  unfold Fields.MayGiveUnlessNull
  have hnull (v : Value) : v.isNull = true ↔ v = .null := by
    cases v <;> simp [Value.isNull]
  cases fields.get? name with
  | none => simp
  | some v =>
    by_cases hv : v = .null
    · subst hv
      simp [Option.filter, Value.isNull]
    · simp [Option.filter, Bool.eq_false_iff.2 (mt (hnull v).1 hv), hv]

/-- Of a table without a key given twice, each key is listed once. -/
theorem nodup_of_mapping {α : Type} {means : Meaning α} {v : Value} {l : List (Str × α)}
    (hv : v.Keyed) (h : Meaning.mapping means v l) : (l.map (·.1)).Nodup := by
  obtain ⟨fields, rfl, hall⟩ := h
  have hkeys : fields.map (·.1) = l.map (·.1) := by
    clear hv
    induction hall with
    | nil => rfl
    | cons hfirst _ ih => rw [List.map_cons, ih, hfirst.1, List.map_cons]
  exact hkeys ▸ hv.fields.nodup

theorem nodup_files (hkeyed : fields.Keyed) {files : List (Str × List Finding)}
    (h : fields.MayGiveUnlessNull "diagnostics" []
      (.mapping (.list (.table Finding.DescribedBy))) files) : (files.map (·.1)).Nodup := by
  rcases h with ⟨v, hv, -, hmapping⟩ | ⟨-, rfl⟩
  · have hmem := (Fields.get?_eq_some_iff hkeyed.nodup).1 hv
    exact nodup_of_mapping (hkeyed.values _ hmem) hmapping
  · exact List.nodup_nil

theorem ofFields_eq_ok (hkeyed : fields.Keyed) :
    ofFields format fields = .ok report ↔ report.format = format ∧ report.DescribedBy fields := by
  have hcheck : ofFields format fields = .ok report ↔
      check format (.table (fields.filter isPresent)) = .ok report := by
    have hrun : (check format).run format.schema (.table (fields.filter isPresent)) = .ok report ↔
        check format (.table (fields.filter isPresent)) = .ok report := Check.run_eq_ok
    rw [← hrun]
    unfold ofFields
    cases (check format).run format.schema (.table (fields.filter isPresent)) with
    | error m => simp
    | ok r => simp
  have hsummary := optional_filter_isPresent decides_summary hkeyed (by decide : "summary" ≠ _)
  have hviolations :=
    optional_filter_isPresent decides_violation.list hkeyed (by decide : "violations" ≠ _)
  have hfiles :=
    optional_filter_isPresent decides_finding.list.mapping hkeyed (by decide : "diagnostics" ≠ _)
  rw [hcheck]
  unfold check Check.table
  cases format with
  | legacy =>
    simp only [Checked.and_eq_ok, Checked.build, Except.ok.injEq, optional_format, hviolations,
      hsummary, exists_and_left, ↓existsAndEq, and_assoc, true_and, exists_const]
    constructor
    · rintro ⟨violations, hviolations, summary, hsummary, rfl⟩
      exact ⟨rfl, hviolations, hsummary⟩
    · rintro ⟨hformat, hdescribed⟩
      cases report with
      | legacy violations summary =>
        exact ⟨violations, hdescribed.1, summary, hdescribed.2, rfl⟩
      | ranged => exact Format.noConfusion hformat
  | ranged =>
    simp only [Checked.and_eq_ok, Checked.build, Except.ok.injEq, optional_format, hfiles,
      hsummary, exists_and_left, ↓existsAndEq, and_assoc, true_and, exists_const]
    constructor
    · rintro ⟨files, hfiles, summary, hsummary, rfl⟩
      exact ⟨rfl, nodup_files hkeyed hfiles, hfiles, hsummary⟩
    · rintro ⟨hformat, hdescribed⟩
      cases report with
      | legacy => exact Format.noConfusion hformat
      | ranged files summary =>
        exact ⟨files, hdescribed.2.1, summary, hdescribed.2.2, rfl⟩

theorem ofFields_ok_or_misfit (format : Format) (fields : Fields) :
    (∃ report, ofFields format fields = .ok report) ∨
      ∃ m, ofFields format fields = .error (.rejected format (.misfit m)) := by
  unfold ofFields
  split
  next report _ => exact .inl ⟨report, rfl⟩
  next m _ => exact .inr ⟨m, rfl⟩

/-- A table is never blank, so its fields decide. -/
theorem parse_table (h : Json.parse room output = .ok (.table fields)) :
    parse room format output = (ofFields format fields).mapError .lint := by
  have hblank : ¬ output.all Text.isBlank = true := by
    rw [not_blank_of_parse h]
    exact Bool.false_ne_true
  unfold parse ofJson
  rw [if_neg hblank, h]

theorem table_of_parse (hblank : ¬ output.all Text.isBlank = true)
    (h : parse room format output = .ok report) :
    ∃ fields, Json.parse room output = .ok (.table fields) := by
  unfold parse ofJson at h
  rw [if_neg hblank] at h
  split at h
  · simp at h
  · simp at h
  · simp at h
  next fields hparse => exact ⟨fields, hparse⟩
  · simp at h

theorem format_empty (format : Format) : (empty format).format = format := by
  cases format with
  | legacy => rfl
  | ranged => rfl

/-- A report comes out just where it is of the format that was asked for and either the output is
blank and the report empty, or the output is a table that describes the report, with all its records
and within all bounds. A table that describes no report is rejected as a whole. -/
theorem parse_describes (room : Nat) (format : Format) (output : List Char) :
    (∀ report, parse room format output = .ok report ↔
      report.format = format ∧
        ((output.all Text.isBlank = true ∧ report = empty format) ∨
          ∃ fields, Json.parse room output = .ok (.table fields) ∧ report.DescribedBy fields)) ∧
    ∀ fields, Json.parse room output = .ok (.table fields) →
      (¬ ∃ report : Report, report.format = format ∧ report.DescribedBy fields) →
      ∃ m, parse room format output = .error (.lint (.rejected format (.misfit m))) := by
  have htable (fields : Fields) (hparse : Json.parse room output = .ok (.table fields))
      (report : Report) : parse room format output = .ok report ↔
        report.format = format ∧ report.DescribedBy fields := by
    rw [parse_table hparse, mapError_eq_ok, ofFields_eq_ok (Json.keyed_of_parse hparse).fields]
  refine ⟨fun report => ⟨fun h => ?_, ?_⟩, fun fields hparse hnone => ?_⟩
  · by_cases hblank : output.all Text.isBlank = true
    · rw [parse, if_pos hblank] at h
      obtain rfl := Except.ok.inj h
      exact ⟨format_empty format, .inl ⟨hblank, rfl⟩⟩
    · obtain ⟨fields, hparse⟩ := table_of_parse hblank h
      obtain ⟨hformat, hdescribed⟩ := (htable fields hparse report).1 h
      exact ⟨hformat, .inr ⟨fields, hparse, hdescribed⟩⟩
  · rintro ⟨hformat, ⟨hblank, rfl⟩ | ⟨fields, hparse, hdescribed⟩⟩
    · rw [parse, if_pos hblank]
    · exact (htable fields hparse report).2 ⟨hformat, hdescribed⟩
  · rcases ofFields_ok_or_misfit format fields with ⟨report, hreport⟩ | ⟨m, hmisfit⟩
    · have hparsed : parse room format output = .ok report := by
        rw [parse_table hparse, hreport]
        rfl
      exact absurd ⟨report, (htable fields hparse report).1 hparsed⟩ hnone
    · refine ⟨m, ?_⟩
      rw [parse_table hparse, hmisfit]
      rfl

end Report

end LintBridge
