import LintBridge.Path.Canonical
import Mathlib.Data.List.Nodup

/-!
# LintBridge.Proofs.Links

Where links lead. `Leads` says which place is reached by following names through a tree, link by
link and without remembering any; a way that goes round in circles reaches nothing. A tree is
`LoopFree` when every way through it reaches some place.

* `Leads.unique`: a way reaches one place, through one number of links. So no link is met again
  while it is being followed.
* `Clear.of_leads`: no link is on the way to the place that is reached.
* `length_le_linkCount`: the links of a tree are as many as `linkCount` says.
-/

namespace LintBridge

namespace Node

variable {tree : Node} {place names dest : List Spelling} {name target : Spelling} {n : Nat}

/-- Whether a part of a path names an entry of a directory. -/
def IsName (name : Spelling) : Prop :=
  Path.counts name = true ∧ name ≠ ".."

/-- Where the way along the target of a link starts, for a link in the directory `place`. -/
def linkStart (place : List Spelling) (target : Spelling) : List Spelling :=
  if (Path.ofText target).isAbsolute then [] else place

/-- Whoever follows the names from a place reaches another one, through a number of links. -/
inductive Leads (tree : Node) : List Spelling → List Spelling → Nat → List Spelling → Prop where
  | arrived {place : List Spelling} : Leads tree place [] 0 place
  | stay {place rest dest : List Spelling} {name : Spelling} {n : Nat}
      (hname : Path.counts name = false) (next : Leads tree place rest n dest) :
      Leads tree place (name :: rest) n dest
  | up {place rest dest : List Spelling} {n : Nat} (next : Leads tree place.dropLast rest n dest) :
      Leads tree place (".." :: rest) n dest
  | enter {place rest dest : List Spelling} {name : Spelling} {n : Nat} (hname : IsName name)
      (hlink : tree.linkTo? (place ++ [name]) = none)
      (next : Leads tree (place ++ [name]) rest n dest) :
      Leads tree place (name :: rest) n dest
  | link {place rest mid dest : List Spelling} {name target : Spelling} {m n : Nat}
      (hname : IsName name) (hlink : tree.linkTo? (place ++ [name]) = some target)
      (inner : Leads tree (linkStart place target) (pieces target) m mid)
      (next : Leads tree mid rest n dest) :
      Leads tree place (name :: rest) (m + n + 1) dest

/-- Every way through the tree reaches a place. -/
def LoopFree (tree : Node) : Prop :=
  ∀ place names, ∃ n dest, Leads tree place names n dest

/-- A way reaches one place, through one number of links. -/
theorem Leads.unique {n' : Nat} {dest' : List Spelling} (h : Leads tree place names n dest)
    (h' : Leads tree place names n' dest') : n = n' ∧ dest = dest' := by
  induction h generalizing n' dest' with
  | arrived => cases h'; exact ⟨rfl, rfl⟩
  | stay hname _ ih =>
    cases h' with
    | stay _ next => exact ih next
    | up _ => simp [Path.counts] at hname
    | enter hn _ _ => simp [hn.1] at hname
    | link hn _ _ _ => simp [hn.1] at hname
  | up _ ih =>
    cases h' with
    | stay hn _ => simp [Path.counts] at hn
    | up next => exact ih next
    | enter hn _ _ => exact absurd rfl hn.2
    | link hn _ _ _ => exact absurd rfl hn.2
  | enter hname hlink _ ih =>
    cases h' with
    | stay hn _ => simp [hname.1] at hn
    | up _ => exact absurd rfl hname.2
    | enter _ _ next => exact ih next
    | link _ hl _ _ => simp [hlink] at hl
  | link hname hlink _ _ ihInner ihNext =>
    cases h' with
    | stay hn _ => simp [hname.1] at hn
    | up _ => exact absurd rfl hname.2
    | enter _ hl _ => simp [hlink] at hl
    | link _ hl inner next =>
      obtain rfl := Option.some.inj (hlink.symm.trans hl)
      obtain ⟨rfl, rfl⟩ := ihInner inner
      obtain ⟨rfl, rfl⟩ := ihNext next
      exact ⟨rfl, rfl⟩

/-! ### Places that no link is on the way to -/

/-- A place is spelled by names of entries, and neither it nor a directory that it lies in is a
link. -/
structure Clear (tree : Node) (place : List Spelling) : Prop where
  names : ∀ name ∈ place, IsName name
  linkless : ∀ q, q ≠ [] → q <+: place → tree.linkTo? q = none

theorem Clear.nil : Clear tree [] :=
  ⟨by simp, fun q hq hp => absurd (List.prefix_nil.1 hp) hq⟩

theorem Clear.of_prefix {q : List Spelling} (h : Clear tree place) (hq : q <+: place) :
    Clear tree q :=
  ⟨fun name hn => h.names name (hq.subset hn), fun r hr hp => h.linkless r hr (hp.trans hq)⟩

theorem Clear.concat (h : Clear tree place) (hname : IsName name)
    (hlink : tree.linkTo? (place ++ [name]) = none) : Clear tree (place ++ [name]) := by
  refine ⟨fun x hx => ?_, fun q hq hp => ?_⟩
  · rcases List.mem_append.1 hx with hx | hx
    · exact h.names x hx
    · rw [List.mem_singleton.1 hx]; exact hname
  · rcases List.prefix_concat_iff.1 hp with rfl | hp
    · exact hlink
    · exact h.linkless q hq hp

theorem Clear.linkStart (h : Clear tree place) (target : Spelling) :
    Clear tree (linkStart place target) := by
  unfold Node.linkStart
  split
  · exact .nil
  · exact h

/-- A way that starts at a clear place reaches a clear place. -/
theorem Clear.of_leads (h : Leads tree place names n dest) (hp : Clear tree place) :
    Clear tree dest := by
  induction h with
  | arrived => exact hp
  | stay _ _ ih => exact ih hp
  | up _ ih => exact ih (hp.of_prefix (List.dropLast_prefix _))
  | enter hname hlink _ ih => exact ih (hp.concat hname hlink)
  | link _ _ _ _ ihInner ihNext => exact ihNext (ihInner (hp.linkStart _))

/-! ### How many links there are -/

theorem linkTo?_directory (entries : List (Spelling × Node)) (rest : List Spelling) :
    (directory entries).linkTo? (name :: rest) =
      (entries.lookup name).bind fun inner => inner.linkTo? rest := by
  simp only [linkTo?, find?]
  cases entries.lookup name <;> rfl

/-- The names that follow `first` in those of some places that start with it. -/
def behind (first : Spelling) (places : List (List Spelling)) : List (List Spelling) :=
  (places.filter (·.head? = some first)).map List.tail

theorem nodup_behind {first : Spelling} {places : List (List Spelling)} (h : places.Nodup) :
    (behind first places).Nodup := by
  refine List.Nodup.map_on (fun p hp q hq hpq => ?_) (h.filter _)
  have hp := (List.mem_filter.1 hp).2
  have hq := (List.mem_filter.1 hq).2
  cases p <;> cases q <;> simp_all

theorem mem_behind {first : Spelling} {places : List (List Spelling)} {rest : List Spelling}
    (h : rest ∈ behind first places) : first :: rest ∈ places := by
  obtain ⟨p, hmem, rfl⟩ := List.mem_map.1 h
  obtain ⟨hp, hhead⟩ := List.mem_filter.1 hmem
  cases p with
  | nil => simp at hhead
  | cons x xs =>
    obtain rfl : x = first := by simpa using hhead
    exact hp

mutual

/-- Different places with links are no more than the links of the tree. -/
theorem length_le_linkCount : ∀ (tree : Node) (places : List (List Spelling)), places.Nodup →
    (∀ q ∈ places, (tree.linkTo? q).isSome) → places.length ≤ tree.linkCount
  | .file .., places, _, h => by
    cases places with
    | nil => simp
    | cons q _ =>
      have := h q (by simp)
      cases q <;> simp [linkTo?, find?] at this
  | .link _, places, hn, h => by
    have hnil : ∀ q ∈ places, q = [] := by
      intro q hq
      have := h q hq
      cases q <;> simp [linkTo?, find?] at this ⊢
    have hsub : places ⊆ [[]] := fun q hq => by simp [hnil q hq]
    exact hn.length_le_of_subset hsub
  | .directory entries, places, hn, h => by
    refine length_le_linksIn entries places hn fun q hq => ?_
    have := h q hq
    cases q with
    | nil => simp [linkTo?, find?] at this
    | cons name rest => exact ⟨name, rest, rfl, by rwa [linkTo?_directory] at this⟩

/-- The same for the entries of a directory. -/
theorem length_le_linksIn : ∀ (entries : List (Spelling × Node)) (places : List (List Spelling)),
    places.Nodup → (∀ q ∈ places, ∃ name rest, q = name :: rest ∧
      ((entries.lookup name).bind fun inner => inner.linkTo? rest).isSome) →
    places.length ≤ linksIn entries
  | [], places, _, h => by
    cases places with
    | nil => simp
    | cons q _ =>
      obtain ⟨name, rest, -, hq⟩ := h q (by simp)
      simp at hq
  | (first, node) :: others, places, hn, h => by
    -- the places below the first entry, and those below the others
    have hsplit : places.length = (behind first places).length +
        (places.filter (¬ ·.head? = some first)).length := by
      simp only [behind, List.length_map]
      simpa using List.length_eq_length_filter_add (l := places) (·.head? = some first)
    have hfirst : (behind first places).length ≤ node.linkCount := by
      refine length_le_linkCount node _ (nodup_behind hn) fun rest hr => ?_
      obtain ⟨name, rest', heq, hq⟩ := h _ (mem_behind hr)
      obtain ⟨rfl, rfl⟩ := List.cons.inj heq
      simpa using hq
    have hothers : (places.filter (¬ ·.head? = some first)).length ≤ linksIn others := by
      refine length_le_linksIn others _ (hn.filter _) fun q hq => ?_
      obtain ⟨hq, hne⟩ := List.mem_filter.1 hq
      obtain ⟨name, rest, rfl, hs⟩ := h q hq
      have hne : (name == first) = false := by simpa using hne
      exact ⟨name, rest, rfl, by simpa [List.lookup_cons, hne] using hs⟩
    rw [linksIn]
    omega

end

theorem linkTo?_of_linkCount_eq_zero (h : tree.linkCount = 0) (q : List Spelling) :
    tree.linkTo? q = none := by
  by_contra hq
  have hle := length_le_linkCount tree [q] (by simp) (by simpa [Option.isSome_iff_ne_none])
  simp [h] at hle

/-- There are no loops if each link leads somewhere by itself. -/
theorem LoopFree.of_targets (h : ∀ q target, tree.linkTo? q = some target → ∀ place,
    ∃ n dest, Leads tree (linkStart place target) (pieces target) n dest) : LoopFree tree := by
  intro place names
  induction names generalizing place with
  | nil => exact ⟨0, place, .arrived⟩
  | cons name rest ih =>
    by_cases hcounts : Path.counts name = true
    · by_cases hup : name = ".."
      · obtain ⟨n, dest, hl⟩ := ih place.dropLast
        exact ⟨n, dest, hup ▸ .up hl⟩
      · cases hlink : tree.linkTo? (place ++ [name]) with
        | none =>
          obtain ⟨n, dest, hl⟩ := ih (place ++ [name])
          exact ⟨n, dest, .enter ⟨hcounts, hup⟩ hlink hl⟩
        | some target =>
          obtain ⟨m, mid, hm⟩ := h _ target hlink place
          obtain ⟨n, dest, hl⟩ := ih mid
          exact ⟨m + n + 1, dest, .link ⟨hcounts, hup⟩ hlink hm hl⟩
    · obtain ⟨n, dest, hl⟩ := ih place
      exact ⟨n, dest, .stay (by simpa using hcounts) hl⟩

/-- Without links there are no loops. -/
theorem LoopFree.of_linkCount_eq_zero (h : tree.linkCount = 0) : LoopFree tree :=
  .of_targets fun q target hlink => by
    simp [linkTo?_of_linkCount_eq_zero h q] at hlink

end Node

end LintBridge
