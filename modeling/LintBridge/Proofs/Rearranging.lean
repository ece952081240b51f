import LintBridge.Proofs.Splicing

/-!
# LintBridge.Proofs.Rearranging

Edits of a text in another order. What the program sorts by, and what it compares of neighbours, is
the `place` of an edit, and sorting leaves no choice in the order of places. So it does not depend
on the order of the edits whether two of them overlap, nor which overlap is found first
(`Splice.overlap?_mergeSort_of_perm`). Edits at one place are all that the order decides about, and
sorting keeps theirs: `Splice.Ordered.unique` says that nothing else is left to choose.

Main result: `Content.edited_perm`.
-/

namespace LintBridge

namespace Splice

variable {a b s : Splice} {l l' splices splices' : List Splice} {start stop : Nat}

/-- The offsets between which a splice replaces. -/
def place (s : Splice) : Nat × Nat :=
  (s.start, s.stop)

theorem isAt_iff : isAt start stop s = true ↔ s.place = (start, stop) := by
  simp [isAt, place]

/-! ### Places in order -/

/-- Overlaps are looked for among places. -/
theorem overlap?_of_places (h : l.map place = l'.map place) : overlap? l = overlap? l' := by
  induction l generalizing l' with
  | nil =>
    obtain rfl : l' = [] := List.map_eq_nil_iff.1 h.symm
    rfl
  | cons a rest ih =>
    obtain ⟨a', rest', rfl, ha, hrest⟩ := List.map_eq_cons_iff.1 h.symm
    cases rest with
    | nil =>
      obtain rfl : rest' = [] := List.map_eq_nil_iff.1 hrest
      rfl
    | cons b others =>
      obtain ⟨b', others', rfl, hb, hothers⟩ := List.map_eq_cons_iff.1 hrest
      have hstop : a'.stop = a.stop := congrArg Prod.snd ha
      have hstart : b'.start = b.start := congrArg Prod.fst hb
      rw [overlap?, overlap?, hstop, hstart, ih hrest.symm]

/-- Sorting leaves no choice in the order of places. -/
theorem places_mergeSort_of_perm (h : splices.Perm splices') :
    (splices.mergeSort comesFirst).map place = (splices'.mergeSort comesFirst).map place := by
  have hsorted (all : List Splice) : ((all.mergeSort comesFirst).map place).Pairwise
      fun p q => p.1 < q.1 ∨ p.1 = q.1 ∧ p.2 ≤ q.2 :=
    (ordered_mergeSort all).sorted.map place fun _ _ hab => hab
  have hperm : (splices.mergeSort comesFirst).Perm (splices'.mergeSort comesFirst) :=
    (ordered_mergeSort splices).perm.trans (h.trans (ordered_mergeSort splices').perm.symm)
  refine (hperm.map place).eq_of_pairwise ?_ (hsorted splices) (hsorted splices')
  intro p q _ _ hpq hqp
  refine Prod.ext ?_ ?_ <;> omega

/-- The overlap that is found does not depend on the order in which splices are given. -/
theorem overlap?_mergeSort_of_perm (h : splices.Perm splices') :
    overlap? (splices.mergeSort comesFirst) = overlap? (splices'.mergeSort comesFirst) :=
  overlap?_of_places (places_mergeSort_of_perm h)

/-! ### Splices in order -/

theorem mem_of_filter_isAt (h : l.filter (isAt a.start a.stop) = l'.filter (isAt a.start a.stop))
    (ha : a ∈ l) : a ∈ l' := by
  have hat : a ∈ l.filter (isAt a.start a.stop) := List.mem_filter.2 ⟨ha, isAt_iff.2 rfl⟩
  rw [h] at hat
  exact (List.mem_filter.1 hat).1

/-- Splices in order are known from those at every place. -/
theorem eq_of_sorted (hl : l.Pairwise fun a b => comesFirst a b = true)
    (hl' : l'.Pairwise fun a b => comesFirst a b = true)
    (h : ∀ start stop, l.filter (isAt start stop) = l'.filter (isAt start stop)) : l = l' := by
  induction l generalizing l' with
  | nil =>
    cases l' with
    | nil => rfl
    | cons b rest' =>
      have hb : b ∈ [] := mem_of_filter_isAt (h b.start b.stop).symm List.mem_cons_self
      exact absurd hb List.not_mem_nil
  | cons a rest ih =>
    have ha : a ∈ l' := mem_of_filter_isAt (h a.start a.stop) List.mem_cons_self
    cases l' with
    | nil => exact absurd ha List.not_mem_nil
    | cons b rest' =>
      have hb : b ∈ a :: rest := mem_of_filter_isAt (h b.start b.stop).symm List.mem_cons_self
      -- each of the two is the first at its place, and neither comes after the other
      have hplace : b.place = a.place := by
        rcases List.mem_cons.1 hb with heq | hb
        · rw [heq]
        rcases List.mem_cons.1 ha with heq | ha
        · rw [heq]
        have hab := comesFirst_iff.1 (List.rel_of_pairwise_cons hl hb)
        have hba := comesFirst_iff.1 (List.rel_of_pairwise_cons hl' ha)
        refine Prod.ext ?_ ?_ <;> simp only [place] <;> omega
      have hfirst := h a.start a.stop
      rw [List.filter_cons_of_pos (isAt_iff.2 rfl), List.filter_cons_of_pos (isAt_iff.2 hplace)]
        at hfirst
      obtain rfl := (List.cons.inj hfirst).1
      refine congrArg (a :: ·) (ih hl.of_cons hl'.of_cons fun start stop => ?_)
      have hboth := h start stop
      rw [List.filter_cons, List.filter_cons] at hboth
      split at hboth
      · exact (List.cons.inj hboth).2
      · exact hboth

/-- There is one order of splices. -/
theorem Ordered.unique (h : Ordered splices l) (h' : Ordered splices' l')
    (hsame : ∀ start stop, splices.filter (isAt start stop) = splices'.filter (isAt start stop)) :
    l = l' := by
  refine eq_of_sorted (h.sorted.imp comesFirst_iff.2) (h'.sorted.imp comesFirst_iff.2) ?_
  intro start stop
  rw [h.stable, h'.stable, hsame]

end Splice

namespace Content

open Splice

variable {content : Content} {edits edits' : List TextEdit}

/-- Of the edits at every single place, both lists hold the same ones in the same order. -/
def SameAtPlaces (content : Content) (edits edits' : List TextEdit) : Prop :=
  ∀ start stop, edits.filter (fun edit => isAt start stop (content.splice edit)) =
    edits'.filter fun edit => isAt start stop (content.splice edit)

theorem SameAtPlaces.splices (h : content.SameAtPlaces edits edits') (start stop : Nat) :
    (edits.map content.splice).filter (isAt start stop) =
      (edits'.map content.splice).filter (isAt start stop) := by
  rw [List.filter_map, List.filter_map]
  exact congrArg (List.map content.splice) (h start stop)

/-- Neighbours at different places may be exchanged. -/
theorem sameAtPlaces_swap {a b : TextEdit}
    (h : (content.splice a).place ≠ (content.splice b).place) (rest : List TextEdit) :
    content.SameAtPlaces (a :: b :: rest) (b :: a :: rest) := by
  intro start stop
  by_cases ha : (content.splice a).place = (start, stop)
  · have hb : ¬ isAt start stop (content.splice b) = true := by
      rw [isAt_iff, ← ha]
      exact Ne.symm h
    simp only [List.filter_cons, if_neg hb]
  · rw [← isAt_iff] at ha
    simp only [List.filter_cons, if_neg ha]

/-- Edits in another order come to the same overlap, or they apply in either order. The text is the
same too if the edits at every single place come in the same order. -/
theorem edited_perm (content : Content) {edits edits' : List TextEdit} (h : edits.Perm edits') :
    ((∃ o, content.edited edits = .error o ∧ content.edited edits' = .error o) ∨
      ∃ text text', content.edited edits = .ok text ∧ content.edited edits' = .ok text') ∧
    (content.SameAtPlaces edits edits' → content.edited edits = content.edited edits') := by
  refine ⟨?_, fun hsame => ?_⟩
  · have hover := overlap?_mergeSort_of_perm (h.map content.splice)
    cases hfound : overlap? ((edits.map content.splice).mergeSort comesFirst) with
    | some o =>
      rw [hfound] at hover
      exact .inl ⟨o, by simp only [edited, hfound], by simp only [edited, ← hover]⟩
    | none =>
      rw [hfound] at hover
      exact .inr ⟨_, _, by simp only [edited, hfound]; rfl, by simp only [edited, ← hover]; rfl⟩
  · have hsorted := (ordered_mergeSort (edits.map content.splice)).unique
      (ordered_mergeSort (edits'.map content.splice)) hsame.splices
    rw [edited, edited, hsorted]

end Content

namespace Sample

open Splice

/-- Two insertions at one offset, and between them in the list an edit further on. -/
def scattered : List TextEdit :=
  [⟨⟨⟨1, 0⟩, ⟨1, 0⟩, by decide⟩, "x"⟩, ⟨⟨⟨1, 0⟩, ⟨1, 1⟩, by decide⟩, "z"⟩,
    ⟨⟨⟨1, 0⟩, ⟨1, 0⟩, by decide⟩, "y"⟩]

/-- The same edits, of which the second comes first. -/
def gathered : List TextEdit :=
  [⟨⟨⟨1, 0⟩, ⟨1, 1⟩, by decide⟩, "z"⟩, ⟨⟨⟨1, 0⟩, ⟨1, 0⟩, by decide⟩, "x"⟩,
    ⟨⟨⟨1, 0⟩, ⟨1, 0⟩, by decide⟩, "y"⟩]

theorem edited_perm_scattered : scattered.Perm gathered ∧
    draft.content.SameAtPlaces scattered gathered ∧
    draft.content.edited scattered = draft.content.edited gathered := by
  have hperm : scattered.Perm gathered := .swap ..
  have hsame : draft.content.SameAtPlaces scattered gathered :=
    Content.sameAtPlaces_swap (by decide) _
  exact ⟨hperm, hsame, (draft.content.edited_perm hperm).2 hsame⟩

/-- In the other order, the insertions come to another text. -/
example : draft.content.edited scattered = .ok ['a', 'b', '\r', '\n', 'x', 'y', 'z'] ∧
    draft.content.edited scattered.reverse = .ok ['a', 'b', '\r', '\n', 'y', 'x', 'z'] := by
  cbv

end Sample

end LintBridge
