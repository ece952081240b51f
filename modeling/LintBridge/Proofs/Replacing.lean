import LintBridge.Proofs.Splicing
import LintBridge.Record.Fixing

/-!
# LintBridge.Proofs.Replacing

The fix of a violation against the text that it is made in. `Splice.replaced` is the text with
splices made all at once, told offset by offset: what is put there, and then the character that
stands there, unless a splice replaces it. For splices that are apart, in whatever order they are
given, this is what putting the text together from left to right comes to
(`Content.edited_eq_replaced`).

A violation gives its replacements by offsets, and they become positions before they are edits.
`Content.settled` is the offset that comes back from that. It keeps the order, so replacements that
are apart stay apart in any text, and it is the offset itself but for the places of `InBreak`.

Main results:

* `Violation.fix_applies`: a fix whose replacements are apart applies to any text.
* `Violation.fix_replaces`: what a fix makes of a text.
-/

namespace LintBridge

namespace Splice

variable {a b s : Splice} {l splices : List Splice} {text : Str} {cursor offset : Nat}

/-! ### All splices at once -/

/-- What a splice replaces begins at an offset. -/
def begins (offset : Nat) (s : Splice) : Bool :=
  s.start == offset && s.covers offset

/-- What splices put at an offset: the texts of those that only insert there, in the order of the
list, and then that of the splice which replaces what begins there. -/
def putAt (splices : List Splice) (offset : Nat) : Str :=
  (splices.filter (isAt offset offset)).flatMap Splice.text ++
    (splices.filter (begins offset)).flatMap Splice.text

/-- What a text becomes at an offset. -/
def replacedAt (splices : List Splice) (text : Str) (offset : Nat) : Str :=
  putAt splices offset ++ if splices.any (·.covers offset) then [] else text[offset]?.toList

/-- The text with all splices made at once. -/
def replaced (splices : List Splice) (text : Str) : Str :=
  (List.range (text.length + 1)).flatMap (replacedAt splices text)

/-- Two insertions at one offset come in the order of the list, before what replaces the character
there. -/
example : replaced [⟨1, 2, ['X']⟩, ⟨1, 1, ['2']⟩, ⟨1, 1, ['1']⟩] ['a', 'b', 'c'] =
    ['a', '2', '1', 'X', 'c'] := by decide

theorem flatMap_getElem? (text : Str) (offset n : Nat) :
    (List.range' offset n).flatMap (fun o => text[o]?.toList) = (text.drop offset).take n := by
  induction n generalizing offset with
  | zero => simp
  | succ n ih =>
    rw [List.range'_succ, List.flatMap_cons, ih]
    cases h : text[offset]? with
    | none =>
      have hpast := List.getElem?_eq_none_iff.1 h
      simp [List.drop_eq_nil_of_le hpast, List.drop_eq_nil_of_le (Nat.le_succ_of_le hpast)]
    | some c =>
      obtain ⟨hlt, rfl⟩ := List.getElem?_eq_some_iff.1 h
      rw [List.drop_eq_getElem_cons hlt, List.take_succ_cons]
      simp

theorem filter_isAt_of_lt (h : ∀ s ∈ splices, offset < s.start) (stop : Nat) :
    splices.filter (isAt offset stop) = [] := by
  refine List.filter_eq_nil_iff.2 fun s hs => ?_
  have := h s hs
  simp only [isAt, Bool.and_eq_true, beq_iff_eq]
  omega

theorem filter_begins_of_lt (h : ∀ s ∈ splices, offset < s.start) :
    splices.filter (begins offset) = [] := by
  refine List.filter_eq_nil_iff.2 fun s hs => ?_
  have := h s hs
  simp only [begins, Bool.and_eq_true, beq_iff_eq]
  omega

theorem any_covers_of_lt (h : ∀ s ∈ splices, offset < s.start) :
    splices.any (·.covers offset) = false := by
  refine List.any_eq_false.2 fun s hs => ?_
  have := h s hs
  simp only [covers, Bool.and_eq_true, decide_eq_true_eq]
  omega

/-- Before all splices nothing is put anywhere, and nothing is replaced. -/
theorem replacedAt_of_lt (h : ∀ s ∈ splices, offset < s.start) :
    replacedAt splices text offset = text[offset]?.toList := by
  simp [replacedAt, putAt, filter_isAt_of_lt h, filter_begins_of_lt h, any_covers_of_lt h]

/-- From where the first of some splices begins, its text is put there, nothing is left of what it
replaces, and then come the others. -/
theorem replacedAt_cons (hs : s.start ≤ s.stop) (hafter : ∀ t ∈ splices, s.stop ≤ t.start)
    (h : s.start ≤ offset) : replacedAt (s :: splices) text offset =
      (if offset = s.start then s.text else []) ++
        if offset < s.stop then [] else replacedAt splices text offset := by
  by_cases hinside : offset < s.stop
  · have hlater : ∀ t ∈ splices, offset < t.start := fun t ht =>
      Nat.lt_of_lt_of_le hinside (hafter t ht)
    have hcovers : s.covers offset = true := by simp [covers, h, hinside]
    have hnot : isAt offset offset s = false := by
      simp only [isAt, Bool.and_eq_false_iff, beq_eq_false_iff_ne]
      omega
    rw [if_pos hinside, replacedAt, putAt, List.filter_cons, hnot, List.filter_cons, begins,
      hcovers, filter_isAt_of_lt hlater, filter_begins_of_lt hlater, List.any_cons, hcovers]
    by_cases hstart : offset = s.start
    · simp [hstart]
    · simp [hstart, Ne.symm hstart]
  · have hcovers : s.covers offset = false := by simp [covers, hinside]
    have hat : isAt offset offset s = decide (offset = s.start) := by
      rw [isAt, Bool.eq_iff_iff]
      simp only [Bool.and_eq_true, beq_iff_eq, decide_eq_true_eq]
      omega
    rw [if_neg hinside, replacedAt, replacedAt, putAt, putAt, List.filter_cons, List.filter_cons,
      begins, hcovers, List.any_cons, hcovers, hat]
    by_cases hstart : offset = s.start
    · simp [hstart]
    · simp [hstart]

/-- Nothing comes of the offsets before `start + n`. -/
theorem flatMap_skip (f : Nat → Str) (start n m : Nat) :
    (List.range' start (n + m)).flatMap (fun o => if o < start + n then [] else f o) =
      (List.range' (start + n) m).flatMap f := by
  rw [← List.range'_append_1, List.flatMap_append]
  have hbefore : (List.range' start n).flatMap (fun o => if o < start + n then [] else f o) = [] :=
    List.flatMap_eq_nil_iff.2 fun o ho => if_pos (List.mem_range'_1.1 ho).2
  have hafter : (List.range' (start + n) m).flatMap (fun o => if o < start + n then [] else f o) =
      (List.range' (start + n) m).flatMap f :=
    List.flatMap_congr fun o ho => if_neg (Nat.not_lt_of_le (List.mem_range'_1.1 ho).1)
  rw [hbefore, hafter, List.nil_append]

/-- Before all splices stands the text. -/
theorem flatMap_before {n : Nat} (h : ∀ s ∈ splices, cursor + n ≤ s.start) :
    (List.range' cursor n).flatMap (replacedAt splices text) = (text.drop cursor).take n := by
  rw [← flatMap_getElem?]
  refine List.flatMap_congr fun o ho => replacedAt_of_lt fun s hs => ?_
  have hlt := (List.mem_range'_1.1 ho).2
  have := h s hs
  omega

/-- Where the first of some splices begins, its text is put once, and the others come from where it
ends. -/
theorem flatMap_cons (hs : Fits text s) (hafter : ∀ t ∈ splices, s.stop ≤ t.start) :
    (List.range' s.start (text.length + 1 - s.start)).flatMap (replacedAt (s :: splices) text) =
      s.text ++
        (List.range' s.stop (text.length + 1 - s.stop)).flatMap (replacedAt splices text) := by
  have hle := hs.le
  have hinside := hs.inside
  obtain ⟨n, hn⟩ : ∃ n, text.length + 1 - s.start = n + 1 := ⟨text.length - s.start, by omega⟩
  have hfirst : replacedAt (s :: splices) text s.start = s.text ++
      if s.start < s.stop then [] else replacedAt splices text s.start := by
    rw [replacedAt_cons hle hafter (Nat.le_refl _), if_pos rfl]
  have hothers : (List.range' (s.start + 1) n).flatMap (replacedAt (s :: splices) text) =
      (List.range' (s.start + 1) n).flatMap
        fun o => if o < s.stop then [] else replacedAt splices text o := by
    refine List.flatMap_congr fun o ho => ?_
    have hlt := (List.mem_range'_1.1 ho).1
    rw [replacedAt_cons hle hafter (by omega), if_neg (by omega), List.nil_append]
  have hskip := flatMap_skip (replacedAt splices text) s.start (s.stop - s.start)
    (text.length + 1 - s.stop)
  have hlength : s.stop - s.start + (text.length + 1 - s.stop) = n + 1 := by omega
  rw [Nat.add_sub_cancel' hle, hlength, List.range'_succ, List.flatMap_cons] at hskip
  rw [hn, List.range'_succ, List.flatMap_cons, hfirst, hothers, List.append_assoc, hskip]

/-- From left to right, the text becomes what it becomes offset by offset. -/
theorem apply_eq_flatMap (hfits : ∀ s ∈ l, Fits text s)
    (hl : l.Pairwise fun a b => a.stop ≤ b.start)
    (hcursor : ∀ s ∈ l, cursor ≤ s.start) (h : cursor ≤ text.length) :
    apply text cursor l =
      (List.range' cursor (text.length + 1 - cursor)).flatMap (replacedAt l text) := by
  induction l generalizing cursor with
  | nil =>
    rw [flatMap_before (by simp), apply, List.take_of_length_le]
    rw [List.length_drop]
    omega
  | cons s rest ih =>
    have hs := hfits s List.mem_cons_self
    have hle := hs.le
    have hinside := hs.inside
    have hstart := hcursor s List.mem_cons_self
    have hafter : ∀ t ∈ rest, s.stop ≤ t.start := fun t ht => List.rel_of_pairwise_cons hl ht
    have hrest := ih (fun t ht => hfits t (List.mem_cons_of_mem s ht)) hl.of_cons hafter hinside
    have hbefore : ∀ t ∈ s :: rest, cursor + (s.start - cursor) ≤ t.start := by
      intro t ht
      rcases List.mem_cons.1 ht with rfl | ht
      · omega
      · have := hafter t ht
        omega
    have hsplit : List.range' cursor (text.length + 1 - cursor) =
        List.range' cursor (s.start - cursor) ++
          List.range' s.start (text.length + 1 - s.start) := by
      have hlength : text.length + 1 - cursor =
          (s.start - cursor) + (text.length + 1 - s.start) := by omega
      rw [hlength, ← List.range'_append_1, Nat.add_sub_cancel' hstart]
    rw [hsplit, List.flatMap_append, flatMap_before hbefore, flatMap_cons hs hafter, apply, hrest,
      List.drop_take, List.append_assoc]

/-! ### In any order -/

/-- Of splices that are apart, at most one replaces what begins at an offset. -/
theorem filter_begins_eq (h : l.Perm splices) (hapart : splices.Pairwise Apart) (offset : Nat) :
    l.filter (begins offset) = splices.filter (begins offset) := by
  have hone : (splices.filter (begins offset)).Pairwise fun _ _ => False := by
    refine (hapart.filter _).imp_of_mem fun {a b} ha hb hapart => ?_
    have hfirst := (List.mem_filter.1 ha).2
    have hsecond := (List.mem_filter.1 hb).2
    simp only [begins, covers, Bool.and_eq_true, beq_iff_eq, decide_eq_true_eq] at hfirst hsecond
    rcases hapart with hapart | hapart <;> omega
  have hperm := h.filter (begins offset)
  generalize splices.filter (begins offset) = found at *
  rcases found with _ | ⟨s, _ | ⟨t, others⟩⟩
  · exact List.perm_nil.1 hperm
  · exact List.perm_singleton.1 hperm
  · exact (List.rel_of_pairwise_cons hone List.mem_cons_self).elim

/-- Sorting the splices does not change what the text becomes. -/
theorem Ordered.replaced_eq (h : Ordered splices l) (hapart : splices.Pairwise Apart)
    (text : Str) : replaced l text = replaced splices text := by
  have hat : replacedAt l text = replacedAt splices text := by
    funext offset
    rw [replacedAt, replacedAt, putAt, putAt, h.stable, filter_begins_eq h.perm hapart,
      h.perm.any_eq]
  rw [replaced, replaced, hat]

/-! ### Moving splices -/

/-- The splice with its offsets changed. -/
def moved (place : Nat → Nat) (s : Splice) : Splice :=
  ⟨place s.start, place s.stop, s.text⟩

/-- The splice with its offsets moved into a text. -/
def within (text : Str) : Splice → Splice :=
  moved fun offset => min offset text.length

/-- Splices that are apart stay so if the order of offsets is kept. -/
theorem not_clash_moved {place : Nat → Nat} (hplace : Monotone place) (h : ¬ Clash splices) :
    ¬ Clash (splices.map (moved place)) := by
  rw [clash_iff, Classical.not_not] at h ⊢
  exact List.pairwise_map.2 (h.imp fun hapart =>
    hapart.imp (fun hle => hplace hle) fun hle => hplace hle)

end Splice

namespace Content

open Splice

/-- Edits that do not clash make all their splices at once. -/
theorem edited_eq_replaced {text : Str} {edits : List TextEdit}
    (h : ¬ Clash (edits.map (ofText text).splice)) :
    (ofText text).edited edits = .ok (replaced (edits.map (ofText text).splice) text) := by
  obtain ⟨ordered, hordered, hedited, -⟩ := edited_of_not_clash h
  have hapart : (edits.map (ofText text).splice).Pairwise Apart := by
    rwa [clash_iff, Classical.not_not] at h
  have hfits : ∀ s ∈ ordered, Fits text s := fun s hs => fits_of_mem (hordered.perm.mem_iff.1 hs)
  have hafter : ordered.Pairwise fun a b => a.stop ≤ b.start :=
    (pairwise_apart_iff (fun s hs => (hfits s hs).le) hordered.sorted).1
      ((hordered.perm.pairwise_iff Apart.symm).2 hapart)
  have hstart : ∀ s ∈ ordered, 0 ≤ s.start := fun s _ => Nat.zero_le s.start
  have hmade : ordered.foldr made text = replaced ordered text := by
    have happly := apply_eq hfits hafter hstart
    rw [apply_eq_flatMap hfits hafter hstart (Nat.zero_le _), List.drop_zero] at happly
    rw [← happly, replaced, List.range_eq_range']
    rfl
  rw [hedited, hmade, hordered.replaced_eq hapart]

/-! ### Offsets taken for positions -/

/-- The offset that comes back when an offset is taken for a position. -/
def settled (content : Content) (offset : Nat) : Nat :=
  content.offsetAt (content.positionAt offset)

/-- An offset is inside a line break: after a carriage return, and before a line feed or at the end
of the text. -/
def InBreak (text : Str) (offset : Nat) : Prop :=
  1 ≤ offset ∧ text[offset - 1]? = some (.char '\r') ∧
    (offset = text.length ∨ text[offset]? = some (.char '\n'))

instance (text : Str) (offset : Nat) : Decidable (InBreak text offset) :=
  inferInstanceAs (Decidable (_ ∧ _ ∧ _))

variable {text : Str} {offset : Nat}

theorem settled_mono (text : Str) : Monotone (ofText text).settled := fun _ _ h =>
  offsetAt_mono text (positionAt_mono text (Int.ofNat_le.2 h))

theorem settled_eq (text : Str) (offset : Nat) : (ofText text).settled offset =
    if InBreak text (min offset text.length) then min offset text.length - 1
    else min offset text.length := by
  rw [settled, positionAt_clamp, Int.toNat_natCast]
  exact offsetAt_positionAt_eq (Nat.min_le_right _ _)

theorem settled_of_not_inBreak (h : ¬ InBreak text (min offset text.length)) :
    (ofText text).settled offset = min offset text.length := by
  rw [settled_eq, if_neg h]

end Content

/-! ### Replacements -/

/-- A replacement as a splice, at the offsets that it gives. -/
def Replacement.splice (r : Replacement) : Splice :=
  ⟨r.stretch.start, r.stretch.stop, r.text⟩

namespace Violation

/-- The replacements that make up the fix of a violation, if it has one. -/
def replacements (v : Violation) : List Replacement :=
  (v.fix.map Fix.replacements).getD []

/-- The replacements of a violation as splices. -/
def splices (v : Violation) : List Splice :=
  v.replacements.map Replacement.splice

end Violation

theorem Range.ofPositions_of_le {start stop : Position} (h : start ≤ stop) :
    ofPositions start stop = .ok ⟨start, stop, h⟩ := by
  simp [ofPositions, between, h, Except.mapError]

namespace Content

open Splice

/-- The range between two offsets of a text, which come in order. -/
def rangeFrom (text : Str) {start stop : Nat} (h : start ≤ stop) : Range where
  start := (ofText text).positionAt start
  stop := (ofText text).positionAt stop
  ordered := positionAt_mono text (Int.ofNat_le.2 h)

theorem rangeBetween_eq (text : Str) {start stop : Nat} (h : start ≤ stop) :
    (ofText text).rangeBetween start stop = .ok (rangeFrom text h) :=
  Range.ofPositions_of_le (positionAt_mono text (Int.ofNat_le.2 h))

/-- The edit of a text that a replacement stands for. -/
def replacing (text : Str) (r : Replacement) : TextEdit :=
  ⟨rangeFrom text r.stretch.ordered, r.text⟩

theorem splice_replacing (text : Str) (r : Replacement) :
    (ofText text).splice (replacing text r) = r.splice.moved (ofText text).settled :=
  rfl

/-- Every replacement stands for an edit: its range does not end before it starts. -/
theorem mapM_editOf (text : Str) (replacements : List Replacement) :
    replacements.mapM (ofText text).editOf = .ok (replacements.map (replacing text)) := by
  have hedit : (ofText text).editOf = fun r => pure (replacing text r) := by
    funext r
    rw [editOf, rangeBetween_eq text r.stretch.ordered]
    rfl
  rw [hedit, List.mapM_pure]
  rfl

end Content

namespace Violation

open Splice

theorem edits_eq (text : Str) (v : Violation) : (Record.violation v).edits (.ofText text) =
    .ok (v.replacements.map (Content.replacing text)) := by
  cases hfix : v.fix with
  | none => simp [Record.edits, replacements, hfix]
  | some fix => simp [Record.edits, replacements, hfix, Content.mapM_editOf]

theorem splices_edits (text : Str) (v : Violation) :
    (v.replacements.map (Content.replacing text)).map (Content.ofText text).splice =
      v.splices.map (moved (Content.ofText text).settled) := by
  rw [splices, List.map_map, List.map_map]
  exact List.map_congr_left fun r _ => Content.splice_replacing text r

/-- A fix whose replacements are apart applies to every text, whatever text its offsets were meant
for: each replacement stands for an edit, and no two edits overlap. The replacements are made where
their offsets settle. -/
theorem fix_applies (text : Str) (v : Violation) (h : ¬ Clash v.splices) :
    ∃ edits, (Record.violation v).edits (.ofText text) = .ok edits ∧
      (Content.ofText text).edited edits =
        .ok (replaced (v.splices.map (moved (Content.ofText text).settled)) text) := by
  have hmoved := not_clash_moved (Content.settled_mono text) h
  rw [← splices_edits] at hmoved ⊢
  exact ⟨_, edits_eq text v, Content.edited_eq_replaced hmoved⟩

end Violation

namespace Sample

open Splice Content

/-- A violation whose fix replaces two stretches and inserts at the end of the first one. -/
def untidy : Violation where
  rule := "spacing"
  severity := "warning"
  message := "untidy"
  file := "a.nu"
  range := ⟨⟨0, 0⟩, ⟨0, 1⟩, by decide⟩
  stretch := ⟨0, 1, by decide⟩
  suggestion := none
  fix := some ⟨"tidy up", [⟨⟨3, 9, by decide⟩, "z"⟩, ⟨⟨2, 2, by decide⟩, "y"⟩,
    ⟨⟨0, 2, by decide⟩, "x"⟩]⟩

/-- A text that is shorter than the fix expects, with a line break at its second offset. -/
def shorter : Str := ['a', '\r', '\n', 'b']

theorem fix_applies_untidy : ¬ Clash untidy.splices ∧ InBreak shorter 2 ∧
    ∃ edits, (Record.violation untidy).edits (.ofText shorter) = .ok edits ∧
      (ofText shorter).edited edits = .ok ['x', 'y', '\r', '\n', 'z'] := by
  have hapart : ¬ Clash untidy.splices := by decide
  have hmade : replaced (untidy.splices.map (moved (ofText shorter).settled)) shorter =
      (['x', 'y', '\r', '\n', 'z'] : Str) := by decide
  refine ⟨hapart, by decide, ?_⟩
  rw [← hmade]
  exact Violation.fix_applies shorter untidy hapart

end Sample

namespace Violation

open Splice

/-- A fix replaces in a text what its offsets say, all at once, if its replacements are apart in the
text and none of them begins or ends inside a line break. -/
theorem fix_replaces (text : Str) (v : Violation)
    (hapart : ¬ Clash (v.splices.map (within text)))
    (hplaces : ∀ s ∈ v.splices.map (within text),
      ¬ Content.InBreak text s.start ∧ ¬ Content.InBreak text s.stop) :
    ∃ edits, (Record.violation v).edits (.ofText text) = .ok edits ∧
      (Content.ofText text).edited edits = .ok (replaced (v.splices.map (within text)) text) := by
  have hsettled : v.splices.map (moved (Content.ofText text).settled) =
      v.splices.map (within text) := by
    refine List.map_congr_left fun s hs => ?_
    obtain ⟨hstart, hstop⟩ := hplaces _ (List.mem_map_of_mem hs)
    rw [moved, within, moved, Content.settled_of_not_inBreak hstart,
      Content.settled_of_not_inBreak hstop]
  rw [← hsettled, ← splices_edits] at hapart ⊢
  exact ⟨_, edits_eq text v, Content.edited_eq_replaced hapart⟩

end Violation

namespace Sample

open Splice Content

/-- A text with a carriage return that is no part of a line break. -/
def returning : Str := ['a', '\r', 'b', '\n', 'c']

theorem fix_replaces_untidy : ¬ Clash (untidy.splices.map (within returning)) ∧
    (∀ s ∈ untidy.splices.map (within returning),
      ¬ InBreak returning s.start ∧ ¬ InBreak returning s.stop) ∧
    ∃ edits, (Record.violation untidy).edits (.ofText returning) = .ok edits ∧
      (ofText returning).edited edits = .ok ['x', 'y', 'b', 'z'] := by
  have hapart : ¬ Clash (untidy.splices.map (within returning)) := by decide
  have hplaces : ∀ s ∈ untidy.splices.map (within returning),
      ¬ InBreak returning s.start ∧ ¬ InBreak returning s.stop := by decide
  have hmade : replaced (untidy.splices.map (within returning)) returning =
      (['x', 'y', 'b', 'z'] : Str) := by decide
  refine ⟨hapart, hplaces, ?_⟩
  rw [← hmade]
  exact Violation.fix_replaces returning untidy hapart hplaces

end Sample

end LintBridge
