import LintBridge.Proofs.Lines
import LintBridge.Terminal
import Mathlib

/-!
# LintBridge.Proofs.Splicing

Edits of a text as splices. The program sorts them and compares neighbours only; `Splice.Apart` is
about any two of them, in either order, and `Splice.overlap?_eq_none_iff` shows that for splices in
order the two agree. Then no splice moves what an earlier one replaces, so that the text put
together from left to right is the text with the splices made one at a time, the last one first
(`Splice.apply_eq`).

Main result: `Buffer.applies_or_clashes`, what comes of a list of edits, for the text alone, for a
document and for a terminal that is asked to edit a document.
-/

namespace LintBridge

namespace Splice

variable {a b s : Splice} {l splices : List Splice} {text : Str} {cursor : Nat}

/-- One of two splices ends before the other one starts. -/
def Apart (a b : Splice) : Prop :=
  a.stop ≤ b.start ∨ b.stop ≤ a.start

instance (a b : Splice) : Decidable (Apart a b) :=
  inferInstanceAs (Decidable (_ ∨ _))

/-- Two splices of a list are not apart. -/
def Clash (splices : List Splice) : Prop :=
  ∃ (i j : Nat) (a b : Splice), i ≠ j ∧ splices[i]? = some a ∧ splices[j]? = some b ∧ ¬ Apart a b

/-- A text with one splice made. -/
def made (s : Splice) (text : Str) : Str :=
  text.take s.start ++ s.text ++ text.drop s.stop

/-- A splice replaces the character at an offset. -/
def covers (s : Splice) (offset : Nat) : Bool :=
  s.start ≤ offset && offset < s.stop

/-- What no splice replaces of a text whose first character stands at `offset`. -/
def outside (splices : List Splice) (offset : Nat) (text : Str) : Str :=
  ((text.zipIdx offset).filter fun entry => !splices.any (·.covers entry.2)).map Prod.fst

/-- A splice is at the place from one offset to another. -/
def isAt (start stop : Nat) (s : Splice) : Bool :=
  s.start == start && s.stop == stop

/-- The splices in the order of their starts and, where these are equal, of their ends. Those at one
place are in the order in which they came. -/
structure Ordered (splices ordered : List Splice) : Prop where
  perm : ordered.Perm splices
  sorted : ordered.Pairwise fun a b => a.start < b.start ∨ a.start = b.start ∧ a.stop ≤ b.stop
  stable : ∀ start stop, ordered.filter (isAt start stop) = splices.filter (isAt start stop)

/-- A splice of a text: its end is not before its start. -/
structure Fits (text : Str) (s : Splice) : Prop where
  le : s.start ≤ s.stop
  inside : s.stop ≤ text.length

/-! ### The order of places -/

theorem comesFirst_iff :
    comesFirst a b = true ↔ a.start < b.start ∨ a.start = b.start ∧ a.stop ≤ b.stop := by
  simp [comesFirst]

theorem comesFirst_trans (a b c : Splice) (h : comesFirst a b = true) (h' : comesFirst b c = true) :
    comesFirst a c = true := by
  rw [comesFirst_iff] at *
  omega

theorem comesFirst_total (a b : Splice) : (comesFirst a b || comesFirst b a) = true := by
  rw [Bool.or_eq_true, comesFirst_iff, comesFirst_iff]
  omega

theorem ordered_mergeSort (splices : List Splice) :
    Ordered splices (splices.mergeSort comesFirst) where
  perm := List.mergeSort_perm splices comesFirst
  sorted :=
    (List.pairwise_mergeSort comesFirst_trans comesFirst_total splices).imp comesFirst_iff.1
  stable := fun start stop => by
    -- splices at one place are in order already, so the sorted list still holds them in a row
    have hsame : (splices.filter (isAt start stop)).Pairwise fun a b => comesFirst a b = true := by
      refine List.pairwise_of_forall_mem_list fun a ha b hb => comesFirst_iff.2 ?_
      have hfirst := (List.mem_filter.1 ha).2
      have hsecond := (List.mem_filter.1 hb).2
      simp only [isAt, Bool.and_eq_true, beq_iff_eq] at hfirst hsecond
      omega
    have hsub := (List.sublist_mergeSort comesFirst_trans comesFirst_total hsame
      List.filter_sublist).filter (isAt start stop)
    simp only [List.filter_filter, Bool.and_self] at hsub
    have hperm := (List.mergeSort_perm splices comesFirst).filter (isAt start stop)
    exact (hsub.eq_of_length hperm.length_eq.symm).symm

/-! ### Splices that do not overlap -/

theorem Apart.symm (h : Apart a b) : Apart b a :=
  Or.symm h

theorem clash_iff : Clash splices ↔ ¬ splices.Pairwise Apart := by
  constructor
  · rintro ⟨i, j, a, b, hne, ha, hb, hclash⟩ hapart
    obtain ⟨hi, rfl⟩ := List.getElem?_eq_some_iff.1 ha
    obtain ⟨hj, rfl⟩ := List.getElem?_eq_some_iff.1 hb
    rw [List.pairwise_iff_getElem] at hapart
    rcases Nat.lt_or_gt_of_ne hne with hlt | hgt
    · exact hclash (hapart i j hi hj hlt)
    · exact hclash (hapart j i hj hi hgt).symm
  · intro hnot
    simp only [List.pairwise_iff_getElem, Classical.not_forall] at hnot
    obtain ⟨i, j, hi, hj, hlt, hclash⟩ := hnot
    exact ⟨i, j, _, _, Nat.ne_of_lt hlt, List.getElem?_eq_getElem hi, List.getElem?_eq_getElem hj,
      hclash⟩

instance : Decidable (Clash splices) :=
  decidable_of_iff _ clash_iff.symm

/-- Of splices in order none overlaps its neighbour just if each ends before all later ones
start. -/
theorem overlap?_eq_none_iff (hle : ∀ s ∈ l, s.start ≤ s.stop) :
    overlap? l = none ↔ l.Pairwise fun a b => a.stop ≤ b.start := by
  induction l with
  | nil => simp [overlap?]
  | cons a rest ih =>
    cases rest with
    | nil => simp [overlap?]
    | cons b rest =>
      have hrest := ih fun s hs => hle s (List.mem_cons_of_mem a hs)
      have hb := hle b (by simp)
      rw [List.pairwise_cons, ← hrest, overlap?]
      by_cases hover : b.start < a.stop
      · rw [if_pos hover]
        simp only [reduceCtorEq, false_iff]
        intro hall
        have := hall.1 b (by simp)
        omega
      · rw [if_neg hover]
        refine ⟨fun hnone => ⟨fun c hc => ?_, hnone⟩, And.right⟩
        rcases List.mem_cons.1 hc with rfl | hc
        · omega
        · have := List.rel_of_pairwise_cons (hrest.1 hnone) hc
          omega

/-- In order, splices are apart just if each ends before all later ones start. -/
theorem pairwise_apart_iff (hle : ∀ s ∈ l, s.start ≤ s.stop)
    (hsorted : l.Pairwise fun a b => a.start < b.start ∨ a.start = b.start ∧ a.stop ≤ b.stop) :
    l.Pairwise Apart ↔ l.Pairwise fun a b => a.stop ≤ b.start := by
  refine ⟨fun hapart => ?_, fun h => h.imp Or.inl⟩
  refine (hapart.and hsorted).imp_of_mem fun {a b} ha hb hboth => ?_
  obtain ⟨hapart, hsorted⟩ := hboth
  have hafter := hle b hb
  rcases hapart with hbefore | hbefore
  · exact hbefore
  · -- two empty places at one offset
    omega

/-! ### Making the splices -/

/-- What comes before all splices stays. -/
theorem take_foldr_made (hl : ∀ s ∈ l, cursor ≤ s.start) (h : cursor ≤ text.length) :
    (l.foldr made text).take cursor = text.take cursor := by
  induction l with
  | nil => rfl
  | cons s rest ih =>
    have hrest := ih fun t ht => hl t (List.mem_cons_of_mem s ht)
    have hlong : cursor ≤ (rest.foldr made text).length := by
      have hlength := congrArg List.length hrest
      simp only [List.length_take] at hlength
      omega
    have hstart := hl s List.mem_cons_self
    rw [List.foldr_cons, made, List.append_assoc, List.take_append_of_le_length
      (by rw [List.length_take]; omega), List.take_take, Nat.min_eq_left hstart, hrest]

theorem length_foldr_made_ge (hl : ∀ s ∈ l, cursor ≤ s.start) (h : cursor ≤ text.length) :
    cursor ≤ (l.foldr made text).length := by
  have hlength := congrArg List.length (take_foldr_made hl h)
  simp only [List.length_take] at hlength
  omega

/-- From left to right or from right to left, the text becomes the same. -/
theorem apply_eq (hfits : ∀ s ∈ l, Fits text s) (hl : l.Pairwise fun a b => a.stop ≤ b.start)
    (hcursor : ∀ s ∈ l, cursor ≤ s.start) :
    apply text cursor l = (l.foldr made text).drop cursor := by
  induction l generalizing cursor with
  | nil => rfl
  | cons s rest ih =>
    have hs := hfits s List.mem_cons_self
    have hafter : ∀ t ∈ rest, s.stop ≤ t.start := fun t ht => List.rel_of_pairwise_cons hl ht
    have hstart : ∀ t ∈ rest, s.start ≤ t.start := fun t ht => Nat.le_trans hs.le (hafter t ht)
    have hinside : s.start ≤ text.length := Nat.le_trans hs.le hs.inside
    rw [apply, ih (fun t ht => hfits t (List.mem_cons_of_mem s ht)) hl.of_cons hafter,
      List.foldr_cons, made, take_foldr_made hstart hinside, List.append_assoc, List.append_assoc,
      List.drop_append_of_le_length]
    rw [List.length_take, Nat.min_eq_left hinside]
    exact hcursor s List.mem_cons_self

/-- The text loses the places of the splices and gains their texts. -/
theorem length_foldr_made (hfits : ∀ s ∈ l, Fits text s)
    (hl : l.Pairwise fun a b => a.stop ≤ b.start) :
    (l.foldr made text).length + (l.map fun s => s.stop - s.start).sum =
      text.length + (l.map fun s => s.text.length).sum := by
  induction l with
  | nil => rfl
  | cons s rest ih =>
    have hs := hfits s List.mem_cons_self
    have hrest := ih (fun t ht => hfits t (List.mem_cons_of_mem s ht)) hl.of_cons
    have hlong : s.stop ≤ (rest.foldr made text).length :=
      length_foldr_made_ge (fun t ht => List.rel_of_pairwise_cons hl ht) hs.inside
    have hle := hs.le
    simp only [List.foldr_cons, made, List.map_cons, List.sum_cons, List.length_append,
      List.length_take, List.length_drop]
    omega

/-! ### What no splice replaces -/

theorem outside_append (splices : List Splice) (offset : Nat) (text text' : Str) :
    outside splices offset (text ++ text') =
      outside splices offset text ++ outside splices (offset + text.length) text' := by
  rw [outside, List.zipIdx_append, List.filter_append, List.map_append]
  rfl

theorem outside_eq_self {offset : Nat} (h : ∀ s ∈ splices, offset + text.length ≤ s.start) :
    outside splices offset text = text := by
  have hall : (text.zipIdx offset).filter (fun entry => !splices.any (·.covers entry.2)) =
      text.zipIdx offset := by
    refine List.filter_eq_self.2 fun entry hentry => ?_
    have hplace := (List.mem_zipIdx hentry).2.1
    simp only [Bool.not_eq_true', List.any_eq_false, covers, Bool.and_eq_true, decide_eq_true_eq]
    intro s hs hcovers
    have := h s hs
    omega
  rw [outside, hall, List.zipIdx_map_fst]

theorem outside_eq_nil {offset : Nat} (hs : s ∈ splices) (hstart : s.start ≤ offset)
    (hstop : offset + text.length ≤ s.stop) : outside splices offset text = [] := by
  have hnone : (text.zipIdx offset).filter (fun entry => !splices.any (·.covers entry.2)) = [] := by
    refine List.filter_eq_nil_iff.2 fun entry hentry => ?_
    have hplace := List.mem_zipIdx hentry
    simp only [Bool.not_eq_true', Bool.not_eq_false, List.any_eq_true, covers, Bool.and_eq_true,
      decide_eq_true_eq]
    exact ⟨s, hs, by omega, by omega⟩
  rw [outside, hnone, List.map_nil]

theorem outside_cons_of_le {offset : Nat} (h : s.stop ≤ offset) :
    outside (s :: splices) offset text = outside splices offset text := by
  unfold outside
  congr 1
  refine List.filter_congr fun entry hentry => ?_
  have hplace := (List.mem_zipIdx hentry).1
  have hfree : s.covers entry.2 = false := by
    simp only [covers, Bool.and_eq_false_iff, decide_eq_false_iff_not]
    omega
  rw [List.any_cons, hfree, Bool.false_or]

theorem outside_perm {l l' : List Splice} (h : l.Perm l') (offset : Nat) (text : Str) :
    outside l offset text = outside l' offset text := by
  unfold outside
  congr 2
  funext entry
  rw [h.any_eq]

theorem drop_eq_append (text : Str) {i j : Nat} (h : i ≤ j) :
    text.drop i = (text.take j).drop i ++ text.drop j := by
  have hdrop : text.drop j = (text.drop i).drop (j - i) := by
    rw [List.drop_drop, Nat.add_sub_cancel' h]
  rw [List.drop_take, hdrop, List.take_append_drop]

/-- What no splice replaces stays, in order. -/
theorem outside_sublist_apply (hfits : ∀ s ∈ l, Fits text s)
    (hl : l.Pairwise fun a b => a.stop ≤ b.start) (hcursor : ∀ s ∈ l, cursor ≤ s.start) :
    (outside l cursor (text.drop cursor)).Sublist (apply text cursor l) := by
  induction l generalizing cursor with
  | nil =>
    have hself : outside [] cursor (text.drop cursor) = text.drop cursor :=
      outside_eq_self (by simp)
    simp only [hself, apply, List.Sublist.refl]
  | cons s rest ih =>
    have hs := hfits s List.mem_cons_self
    have hle := hs.le
    have hinside := hs.inside
    have hafter : ∀ t ∈ rest, s.stop ≤ t.start := fun t ht => List.rel_of_pairwise_cons hl ht
    have hstart := hcursor s List.mem_cons_self
    have hrest := ih (fun t ht => hfits t (List.mem_cons_of_mem s ht)) hl.of_cons hafter
    -- the text before the splice, what it replaces, and the rest
    have hsplit : text.drop cursor = (text.take s.start).drop cursor ++
        ((text.take s.stop).drop s.start ++ text.drop s.stop) := by
      rw [drop_eq_append text hstart, drop_eq_append text hle]
    have hbefore : ((text.take s.start).drop cursor).length = s.start - cursor := by
      simp only [List.length_drop, List.length_take]
      omega
    have hhere : ((text.take s.stop).drop s.start).length = s.stop - s.start := by
      simp only [List.length_drop, List.length_take]
      omega
    have hgone : outside (s :: rest) s.start ((text.take s.stop).drop s.start) = [] :=
      outside_eq_nil List.mem_cons_self (Nat.le_refl _) (by omega)
    have hkept : outside (s :: rest) cursor ((text.take s.start).drop cursor) =
        (text.take s.start).drop cursor := by
      refine outside_eq_self fun t ht => ?_
      rcases List.mem_cons.1 ht with rfl | ht
      · omega
      · have := hafter t ht
        omega
    rw [hsplit, outside_append, outside_append, hbefore, hhere, Nat.add_sub_cancel' hstart,
      Nat.add_sub_cancel' hle, hkept, hgone, outside_cons_of_le (Nat.le_refl _), apply,
      List.append_assoc]
    exact (List.Sublist.refl _).append ((List.nil_sublist s.text).append hrest)

end Splice

namespace Content

open Splice

/-- The places of edits are places of the text. -/
theorem fits_splice (text : Str) (edit : TextEdit) :
    Fits text ((ofText text).splice edit) where
  le := offsetAt_mono text edit.range.ordered
  inside := offsetAt_le_length text edit.range.stop

theorem fits_of_mem {text : Str} {edits : List TextEdit} {s : Splice}
    (h : s ∈ edits.map (ofText text).splice) : Fits text s := by
  obtain ⟨edit, -, rfl⟩ := List.mem_map.1 h
  exact fits_splice text edit

theorem overlap?_mergeSort_eq_none_iff {splices : List Splice}
    (hle : ∀ s ∈ splices, s.start ≤ s.stop) :
    overlap? (splices.mergeSort comesFirst) = none ↔ ¬ Clash splices := by
  have hordered := ordered_mergeSort splices
  have hle' : ∀ s ∈ splices.mergeSort comesFirst, s.start ≤ s.stop := fun s hs =>
    hle s (hordered.perm.mem_iff.1 hs)
  rw [overlap?_eq_none_iff hle', ← pairwise_apart_iff hle' hordered.sorted,
    hordered.perm.pairwise_iff Apart.symm, clash_iff, Classical.not_not]

/-- Edits that clash do not apply. -/
theorem edited_of_clash {text : Str} {edits : List TextEdit}
    (h : Clash (edits.map (ofText text).splice)) : ∃ o, (ofText text).edited edits = .error o := by
  have hle : ∀ s ∈ edits.map (ofText text).splice, s.start ≤ s.stop := fun s hs =>
    (fits_of_mem hs).le
  cases hover : overlap? ((edits.map (ofText text).splice).mergeSort comesFirst) with
  | some o => exact ⟨o, by simp only [edited, hover]⟩
  | none => exact absurd h ((overlap?_mergeSort_eq_none_iff hle).1 hover)

/-- Other edits apply one at a time, from the last one to the first. -/
theorem edited_of_not_clash {text : Str} {edits : List TextEdit}
    (h : ¬ Clash (edits.map (ofText text).splice)) :
    ∃ ordered, Ordered (edits.map (ofText text).splice) ordered ∧
      (ofText text).edited edits = .ok (ordered.foldr made text) ∧
      (ordered.foldr made text).length + (edits.map fun edit =>
          (ofText text).offsetAt edit.range.stop - (ofText text).offsetAt edit.range.start).sum =
        text.length + (edits.map fun edit => edit.text.length).sum ∧
      (outside (edits.map (ofText text).splice) 0 text).Sublist (ordered.foldr made text) := by
  have hle : ∀ s ∈ edits.map (ofText text).splice, s.start ≤ s.stop := fun s hs =>
    (fits_of_mem hs).le
  have hordered := ordered_mergeSort (edits.map (ofText text).splice)
  have hover := (overlap?_mergeSort_eq_none_iff hle).2 h
  generalize hsort : (edits.map (ofText text).splice).mergeSort comesFirst = ordered at *
  have hfits : ∀ s ∈ ordered, Fits text s := fun s hs => fits_of_mem (hordered.perm.mem_iff.1 hs)
  have hafter := (overlap?_eq_none_iff fun s hs => (hfits s hs).le).1 hover
  have happly : apply text 0 ordered = ordered.foldr made text :=
    apply_eq hfits hafter fun s _ => Nat.zero_le s.start
  refine ⟨ordered, hordered, ?_, ?_, ?_⟩
  · simp only [edited, hsort, hover, ← happly]
    rfl
  · have hlength := length_foldr_made hfits hafter
    rw [(hordered.perm.map fun s => s.stop - s.start).sum_nat,
      (hordered.perm.map fun s => s.text.length).sum_nat, List.map_map, List.map_map] at hlength
    exact hlength
  · have hsub := outside_sublist_apply hfits hafter fun s _ => Nat.zero_le s.start
    rw [happly, List.drop_zero] at hsub
    rwa [outside_perm hordered.perm] at hsub

end Content

namespace Buffer

open Splice

theorem run_editing (b : Buffer) (edits : List TextEdit) : (editing edits).run b =
    match b.content.edited edits with
    | .ok text => .ok () (b.setText text)
    | .error o => .error o b := by
  cases h : b.content.edited edits <;>
    simp [editing, h, EStateM.run, bind, EStateM.bind, get, getThe, MonadStateOf.get, EStateM.get,
      MonadExcept.ofExcept, throw, throwThe, MonadExceptOf.throw, EStateM.throw, pure, EStateM.pure,
      modify, modifyGet, MonadStateOf.modifyGet, EStateM.modifyGet]

/-- What comes of a list of edits of a document, applied to its text alone, by the document and by a
terminal.

* No edit ends before it starts.
* If any two edits clash, an overlap comes of it, the document keeps its text and its index, and the
  terminal prints one error and says that the edits do not apply.
* Otherwise the text is the one with the edits made one at a time, each at its place in the text as
  it was, from the last one to the first. What lies outside all edits is kept in order, the text
  loses what the edits replace and gains their texts, and both the document and the terminal install
  it. -/
theorem applies_unless_clash (t : Terminal) (b : Buffer) {text : Str}
    (h : b.content = .ofText text) (edits : List TextEdit) :
    (∀ s ∈ edits.map b.content.splice, s.start ≤ s.stop) ∧
    (Clash (edits.map b.content.splice) → ∃ o : Overlap,
      b.content.edited edits = .error o ∧
      (editing edits).run b = .error o b ∧
      t.applyEdits b edits = (false, b, { t with errors := t.errors ++ [(o.message : Str)] },
        { printed :=
            Terminal.printed (Notice.symbol t.emoji Notice.fail.mark ++ o.message).toList })) ∧
    (¬ Clash (edits.map b.content.splice) → ∃ ordered,
      Ordered (edits.map b.content.splice) ordered ∧
      b.content.edited edits = .ok (ordered.foldr made text) ∧
      (outside (edits.map b.content.splice) 0 text).Sublist (ordered.foldr made text) ∧
      (ordered.foldr made text).length + (edits.map fun edit =>
          b.content.offsetAt edit.range.stop - b.content.offsetAt edit.range.start).sum =
        text.length + (edits.map fun edit => edit.text.length).sum ∧
      (editing edits).run b = .ok () (b.setText (ordered.foldr made text)) ∧
      t.applyEdits b edits = (true, b.setText (ordered.foldr made text), t, {})) := by
  have hrun := run_editing b edits
  rw [h] at hrun ⊢
  refine ⟨fun s hs => (Content.fits_of_mem hs).le, fun hclash => ?_, fun hapart => ?_⟩
  · obtain ⟨o, ho⟩ := Content.edited_of_clash hclash
    refine ⟨o, ho, by rw [hrun, ho], ?_⟩
    simp [Terminal.applyEdits, Terminal.edit, applyEdits, h, ho, Except.map, Except.mapError,
      Terminal.after, Board.after, Terminal.lines, Notice.line_ofString, Terminal.print_ofString]
  · obtain ⟨ordered, hordered, hedited, hlength, hkept⟩ := Content.edited_of_not_clash hapart
    refine ⟨ordered, hordered, hedited, hkept, hlength, by rw [hrun, hedited], ?_⟩
    simp [Terminal.applyEdits, Terminal.edit, applyEdits, h, hedited, Except.map, Except.mapError]

end Buffer

namespace Sample

open Splice

def draft : Buffer :=
  { path := ⟨.root, ["ws", "a.nu"]⟩, uri := "file:///ws/a.nu",
    content := .ofText ['a', 'b', '\r', '\n', 'c'] }

/-- The second edit inserts at the start of what the first one replaces. -/
def adjacent : List TextEdit :=
  [⟨⟨⟨0, 1⟩, ⟨0, 9⟩, by decide⟩, "xx"⟩, ⟨⟨⟨0, 1⟩, ⟨0, 1⟩, by decide⟩, "y"⟩]

theorem applies_adjacent : draft.content = .ofText ['a', 'b', '\r', '\n', 'c'] ∧
    ¬ Clash (adjacent.map draft.content.splice) ∧
    ∃ ordered, Ordered (adjacent.map draft.content.splice) ordered ∧
      (Buffer.editing adjacent).run draft =
        .ok () (draft.setText (ordered.foldr made ['a', 'b', '\r', '\n', 'c'])) := by
  have happlies := Buffer.applies_unless_clash {} draft rfl adjacent
  have hapart : ¬ Clash (adjacent.map draft.content.splice) := by decide
  obtain ⟨ordered, hordered, -, -, -, hediting, -⟩ := happlies.2.2 hapart
  exact ⟨rfl, hapart, ordered, hordered, hediting⟩

end Sample

end LintBridge
