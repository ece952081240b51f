import LintBridge.Proofs.Atomicity
import LintBridge.Proofs.Conformity

/-!
# LintBridge.Proofs.Matching

From the diagnostics that show records back to the records. Two pieces of code have to agree for
this: the one that makes diagnostics, and the one that looks for the record behind a diagnostic by
code, range and selection. Records with the same code and range (`Record.Alike`) cannot be told
apart, and the first of them is found. Any other record is found by its own diagnostic and by no
other.

Main result: `shownAll_leadBack`.
-/

namespace LintBridge

open LintBridge.Data

/-! ### Positions that ranges share -/

theorem Position.later_le_iff {p q r : Position} : p.later q ≤ r ↔ p ≤ r ∧ q ≤ r := by
  unfold later
  split
  next h => exact ⟨fun hr => ⟨le_trans h hr, hr⟩, fun hr => hr.2⟩
  next h =>
    have hqp : q ≤ p := (le_total p q).resolve_left h
    exact ⟨fun hr => ⟨hr, le_trans hqp hr⟩, fun hr => hr.1⟩

theorem Position.le_earlier_iff {p q r : Position} : r ≤ p.earlier q ↔ r ≤ p ∧ r ≤ q := by
  unfold earlier
  split
  next h => exact ⟨fun hr => ⟨hr, le_trans hr h⟩, fun hr => hr.1⟩
  next h =>
    have hqp : q ≤ p := (le_total p q).resolve_left h
    exact ⟨fun hr => ⟨le_trans hr hqp, hr⟩, fun hr => hr.2⟩

namespace Range

/-- The cursor is in the range at a position. Both ends count. -/
def Holds (r : Range) (p : Position) : Prop :=
  r.start ≤ p ∧ p ≤ r.stop

/-- Ranges intersect if and only if they share a position. -/
theorem intersects_iff {a b : Range} : a.intersects b = true ↔ ∃ p, a.Holds p ∧ b.Holds p := by
  unfold intersects
  rw [decide_eq_true_iff]
  constructor
  · intro h
    -- the later of the two starts is in both ranges
    obtain ⟨ha, hb⟩ := Position.later_le_iff.1 (Position.le_refl (a.start.later b.start))
    obtain ⟨ha', hb'⟩ := Position.le_earlier_iff.1 h
    exact ⟨a.start.later b.start, ⟨ha, ha'⟩, ⟨hb, hb'⟩⟩
  · rintro ⟨p, ⟨ha, ha'⟩, ⟨hb, hb'⟩⟩
    have hstart : a.start.later b.start ≤ p := Position.later_le_iff.2 ⟨ha, hb⟩
    have hstop : p ≤ a.stop.earlier b.stop := Position.le_earlier_iff.2 ⟨ha', hb'⟩
    exact Position.le_trans hstart hstop

end Range

/-! ### Where reports say that records are -/

/-- The range, as the fields of a violation spell it: lines and columns are counted from one. -/
structure Range.CountedFromOne (r : Range) (fields : Fields) : Prop where
  startLine : fields.required "line_start" (.atLeast 1) = .ok (r.start.line + 1)
  stopLine : fields.required "line_end" (.atLeast 1) = .ok (r.stop.line + 1)
  startColumn : fields.required "column_start" (.atLeast 1) = .ok (r.start.character + 1)
  stopColumn : fields.required "column_end" (.atLeast 1) = .ok (r.stop.character + 1)

theorem required_of_gives {fields : Fields} {name : String} {n : Nat}
    (h : fields.Gives name .number ((n : Int) + 1)) :
    fields.required name (.atLeast 1) = .ok (n + 1) := by
  obtain ⟨v, hv, hn⟩ := h
  have hone : Meaning.number v ((n + 1 : Nat) : Int) := by
    push_cast
    exact hn
  exact ((Check.decides_atLeast 1).required fields name _).2 ⟨v, hv, hone, Nat.le_add_left 1 n⟩

/-- What is held of a violation is its place counted from zero. -/
theorem Violation.countedFromOne {fields : Fields} {v : Violation}
    (h : Violation.check (.table fields) = .ok v) : v.range.CountedFromOne fields := by
  rw [decides_violation, Meaning.table_table] at h
  obtain ⟨s, hgiven, -, hmarks⟩ := h.span
  obtain rfl := Span.marks_iff.1 hmarks
  exact ⟨required_of_gives hgiven.lineStart, required_of_gives hgiven.lineEnd,
    required_of_gives hgiven.columnStart, required_of_gives hgiven.columnEnd⟩

theorem Finding.range_of_check {fields : Fields} {f : Finding}
    (h : Finding.check (.table fields) = .ok f) :
    fields.required "range" Range.check = .ok f.range := by
  rw [decides_finding, Meaning.table_table] at h
  exact (decides_range.required fields "range" f.range).2 h.range

/-- If the fields are those of a record, they spell the range: a violation counts from one, and a
finding from zero. -/
def Record.SpelledAt (fields : Fields) (range : Range) : Record → Prop
  | violation v => Violation.check (.table fields) = .ok v → range.CountedFromOne fields
  | finding f =>
    Finding.check (.table fields) = .ok f → fields.required "range" Range.check = .ok range

theorem Record.spelledAt (r : Record) (fields : Fields) : r.SpelledAt fields r.range := by
  cases r with
  | violation v => exact Violation.countedFromOne
  | finding f => exact Finding.range_of_check

/-! ### Diagnostics and their records -/

/-- The diagnostic is about what the record is about, at the same place. -/
def Record.IsShownBy (r : Record) (d : Diagnostic) : Prop :=
  d.code = r.code ∧ d.range = r.range

section Shown

variable {disk : Disk} {workspace fallback : Option Path} {file : Path} {d : Diagnostic}

theorem Violation.isShownBy {v : Violation} (h : v.shown file = .ok d) :
    (Record.violation v).IsShownBy d := by
  unfold Violation.shown at h
  cases hsuggestion : v.suggestion with
  | none =>
    simp only [hsuggestion] at h
    obtain rfl := Except.ok.inj h
    exact ⟨rfl, rfl⟩
  | some suggestion =>
    simp only [hsuggestion] at h
    obtain ⟨uri, -, h⟩ := bind_eq_ok.1 h
    obtain rfl := Except.ok.inj h
    exact ⟨rfl, rfl⟩

theorem Finding.isShownBy {f : Finding} (h : f.shown disk workspace fallback = .ok d) :
    (Record.finding f).IsShownBy d := by
  obtain ⟨related, -, h⟩ := bind_eq_ok.1 h
  obtain rfl := Except.ok.inj h
  exact ⟨rfl, rfl⟩

theorem Record.isShownBy {r : Record} (h : r.shown disk file workspace = .ok d) :
    r.IsShownBy d := by
  cases r with
  | violation v => exact Violation.isShownBy h
  | finding f => exact Finding.isShownBy h

theorem forall₂_shownAll {records : List Record} {diagnostics : List Diagnostic}
    (h : shownAll disk records file workspace = .ok diagnostics) :
    List.Forall₂ Record.IsShownBy records diagnostics :=
  (forall₂_of_mapM h).imp fun _ _ => Record.isShownBy

end Shown

/-! ### Looking for the record behind a diagnostic -/

namespace Record

variable {a r found : Record} {code : Str} {range selection : Range}
  {records before after : List Record}

/-- Records that a diagnostic does not tell apart. -/
def Alike (a b : Record) : Prop :=
  a.code = b.code ∧ a.range = b.range

theorem isBehind_iff : isBehind code range selection r = true ↔
    r.code = code ∧ r.range = range ∧ ∃ p, range.Holds p ∧ selection.Holds p := by
  simp only [isBehind, Bool.and_eq_true, decide_eq_true_iff, Range.intersects_iff, and_assoc]
  exact and_congr_right fun _ => and_congr_right fun hrange => by rw [hrange]

/-- The record behind a diagnostic that shows `r` is one with the code and range of `r`. -/
theorem fixFor?_spec (h : fixFor? r.code r.range selection records = some found) :
    found ∈ records ∧ found.Alike r ∧ found.hasFix = true ∧
      ∃ p, r.range.Holds p ∧ selection.Holds p := by
  obtain ⟨hbehind, hfix⟩ := Option.filter_eq_some_iff.1 h
  obtain ⟨hcode, hrange, hp⟩ := isBehind_iff.1 (List.find?_some hbehind)
  exact ⟨List.mem_of_find?_eq_some hbehind, ⟨hcode, hrange⟩, hfix, hp⟩

/-- No record is passed over on the way to the first one of its code and range. -/
theorem behind?_append (h : ∀ a ∈ before, ¬ a.Alike r) :
    behind? r.code r.range selection (before ++ after) =
      behind? r.code r.range selection after := by
  have hnone : before.find? (isBehind r.code r.range selection) = none := by
    rw [List.find?_eq_none]
    intro a ha hbehind
    obtain ⟨hcode, hrange, -⟩ := isBehind_iff.1 hbehind
    exact h a ha ⟨hcode, hrange⟩
  unfold behind?
  rw [List.find?_append, hnone, Option.none_or]

/-- A record that carries a fix is found where the user looks at it. -/
theorem fixFor?_own (h : ∀ a ∈ before, ¬ a.Alike r) (hfix : r.hasFix = true) {p : Position}
    (hp : r.range.Holds p) (hselection : selection.Holds p) :
    fixFor? r.code r.range selection (before ++ r :: after) = some r := by
  have hbehind : isBehind r.code r.range selection r = true :=
    isBehind_iff.2 ⟨rfl, rfl, p, hp, hselection⟩
  unfold fixFor?
  rw [behind?_append h, behind?, List.find?_cons_of_pos hbehind, Option.filter_some, if_pos hfix]

/-- Nothing else is found for the first record of its code and range. -/
theorem eq_of_fixFor? (h : ∀ a ∈ before, ¬ a.Alike r)
    (hfound : fixFor? r.code r.range selection (before ++ r :: after) = some found) :
    found = r := by
  obtain ⟨-, -, -, p, hp, hselection⟩ := fixFor?_spec hfound
  have hbehind : isBehind r.code r.range selection r = true :=
    isBehind_iff.2 ⟨rfl, rfl, p, hp, hselection⟩
  unfold fixFor? at hfound
  rw [behind?_append h, behind?, List.find?_cons_of_pos hbehind] at hfound
  exact (Option.some.inj (Option.filter_eq_some_iff.1 hfound).1).symm

end Record

/-! ### Back to the records -/

/-- Diagnostics show records, one each and in the same order, and lead back to them. -/
structure LeadBack (records : List Record) (diagnostics : List Diagnostic) : Prop where
  shown : List.Forall₂ Record.IsShownBy records diagnostics
  /-- A diagnostic is where the report has the record. -/
  place : ∀ (i : Nat) (r : Record) (d : Diagnostic), records[i]? = some r →
    diagnostics[i]? = some d → ∀ fields, r.SpelledAt fields d.range
  /-- A diagnostic leads to a fix of a record with its own code and range only. -/
  alike : ∀ (i : Nat) (r : Record) (d : Diagnostic), records[i]? = some r →
    diagnostics[i]? = some d → ∀ selection found,
      Record.fixFor? d.code d.range selection records = some found →
        found ∈ records ∧ found.Alike r ∧ found.hasFix = true
  /-- It leads to its own record, unless an earlier one is like it or the user looks elsewhere. -/
  own : ∀ (i : Nat) (r : Record) (d : Diagnostic), records[i]? = some r →
    diagnostics[i]? = some d → (∀ a ∈ records.take i, ¬ a.Alike r) → ∀ selection found,
      Record.fixFor? d.code d.range selection records = some found ↔
        found = r ∧ r.hasFix = true ∧ ∃ p, r.range.Holds p ∧ selection.Holds p

/-- Records of a file, if they can be shown, are shown by diagnostics that lead back to them. -/
theorem shownAll_leadBack {disk : Disk} {workspace : Option Path} {file : Path}
    (hfile : file.isAbsolute = true) {records : List Record}
    (h : ¬ Unshowable disk workspace file records) :
    ∃ diagnostics, shownAll disk records file workspace = .ok diagnostics ∧
      LeadBack records diagnostics := by
  obtain ⟨diagnostics, hall⟩ := (shownAll_isOk_iff hfile records).2 h
  have hshown := forall₂_shownAll hall
  have hone {i : Nat} {r : Record} {d : Diagnostic} (hr : records[i]? = some r)
      (hd : diagnostics[i]? = some d) : r.IsShownBy d := by
    obtain ⟨hi, rfl⟩ := List.getElem?_eq_some_iff.1 hr
    obtain ⟨hi', rfl⟩ := List.getElem?_eq_some_iff.1 hd
    exact (List.forall₂_iff_get.1 hshown).2 i hi hi'
  refine ⟨diagnostics, hall, hshown, ?place, ?alike, ?own⟩
  case place =>
    intro i r d hr hd fields
    obtain ⟨-, hrange⟩ := hone hr hd
    rw [hrange]
    exact r.spelledAt fields
  case alike =>
    intro i r d hr hd selection found hfound
    obtain ⟨hcode, hrange⟩ := hone hr hd
    rw [hcode, hrange] at hfound
    obtain ⟨hmem, halike, hfix, -⟩ := Record.fixFor?_spec hfound
    exact ⟨hmem, halike, hfix⟩
  case own =>
    intro i r d hr hd hfirst selection found
    obtain ⟨hcode, hrange⟩ := hone hr hd
    rw [hcode, hrange]
    have hsplit : records = records.take i ++ r :: records.drop (i + 1) := by
      obtain ⟨hlt, rfl⟩ := List.getElem?_eq_some_iff.1 hr
      rw [← List.drop_eq_getElem_cons hlt, List.take_append_drop]
    constructor
    · intro hfound
      obtain ⟨-, -, hfix, hp⟩ := Record.fixFor?_spec hfound
      rw [hsplit] at hfound
      obtain rfl := Record.eq_of_fixFor? hfirst hfound
      exact ⟨rfl, hfix, hp⟩
    · rintro ⟨rfl, hfix, p, hp, hselection⟩
      rw [hsplit]
      exact Record.fixFor?_own hfirst hfix hp hselection

namespace Sample

def wide : Range := ⟨⟨0, 0⟩, ⟨0, 4⟩, by decide⟩

/-- A violation that is mended by one replacement. -/
def mendable : Violation where
  rule := "c"
  severity := "warning"
  message := "m"
  file := "a.nu"
  range := wide
  stretch := ⟨0, 4, by decide⟩
  suggestion := some "s"
  fix := some ⟨"d", [⟨⟨0, 4, by decide⟩, "x"⟩]⟩

/-- A finding with a remark on the file itself. -/
def remarked : Finding where
  range := range
  severity := 1
  code := "c"
  source := linterSource
  message := "m"
  related := some [⟨⟨"a.nu", wide⟩, "m"⟩]
  action := some ⟨"t", [⟨wide, "x"⟩]⟩

/-- Three records with one code, the ranges of which touch. The last two are alike. -/
def touching : List Record :=
  [.violation mendable, .finding remarked, .finding { remarked with action := none }]

theorem shown_touching : ¬ Unshowable disk (some root) file touching := by
  rintro ⟨f, hf, remark, hremark, fault, hfault⟩
  have hrelated : f.related = some [⟨⟨"a.nu", wide⟩, "m"⟩] := by
    simp only [touching, List.mem_cons, List.not_mem_nil, or_false, reduceCtorEq, false_or,
      Record.finding.injEq] at hf
    rcases hf with rfl | rfl
    · rfl
    · rfl
  obtain rfl : remark = ⟨⟨"a.nu", wide⟩, "m"⟩ := by simpa [hrelated] using hremark
  simp [reported_name] at hfault

theorem shownAll_leadBack_touching : ∃ diagnostics,
    shownAll disk touching file (some root) = .ok diagnostics ∧ LeadBack touching diagnostics :=
  shownAll_leadBack (by decide) shown_touching

end Sample

end LintBridge
