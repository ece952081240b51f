import LintBridge.Proofs.Links
import Mathlib.Data.List.Induction

/-!
# LintBridge.Proofs.Canonical

`Disk.canonical` against `Node.Leads`. `Disk.along` keeps a record of the links that it has met, by
their spelling, and a link that is still being resolved is not entered again. In a tree without
loops it never meets one: what is open takes more links to resolve than what is left of the way
(`Opens`), and every way takes one number of links. So the record only saves work, and `follow`
reaches what the way leads to (`arrives_follow`).

Main results:

* `resolve_of_leads`: a path is resolved to the place that its way leads to.
* `canonical_of_clear`: a path that no link is on the way to is canonical as it is.
* `canonical_canonical`: in a tree without loops the canonical path of a file is canonical.
-/

namespace LintBridge

namespace Path

/-- No part of the path holds the character U+0000. -/
def NulFree (p : Path) : Prop :=
  p.parts.any (·.contains '\x00') = false

theorem collapse_concat_up (parts : List Spelling) :
    collapse (parts ++ [(".." : Spelling)]) = (collapse parts).dropLast := by
  simp [collapse, List.foldl_append]

theorem collapse_concat {name : Spelling} (h : name ≠ "..") (parts : List Spelling) :
    collapse (parts ++ [name]) = collapse parts ++ [name] := by
  simp [collapse, List.foldl_append, h]

/-- Without `..` there is nothing to cancel. -/
theorem collapse_eq_self {parts : List Spelling} (h : (".." : Spelling) ∉ parts) :
    collapse parts = parts := by
  induction parts using List.reverseRecOn with
  | nil => rfl
  | append_singleton parts name ih =>
    have hname : name ≠ ".." := fun he => h (by simp [he])
    rw [collapse_concat hname, ih fun hm => h (by simp [hm])]

/-- Going up from a relative path may add a `..`, and drops a name otherwise. -/
theorem up_relative {p : Path} (h : p.anchor = .relative) :
    p.up = p.child ".." ∨ ∃ init, ∃ x : Spelling, x ≠ ".." ∧ p = ⟨.relative, init ++ [x]⟩ ∧
      p.up = ⟨.relative, init⟩ := by
  obtain ⟨anchor, parts⟩ := p
  obtain rfl : anchor = .relative := h
  rcases List.eq_nil_or_concat' parts with rfl | ⟨init, x, rfl⟩
  · exact .inl rfl
  · by_cases hx : x = ".."
    · subst hx
      left
      simp [Path.up]
    · refine .inr ⟨init, x, hx, rfl, ?_⟩
      simp [Path.up, Path.parent, hx]

end Path

namespace Disk

open Node

variable {disk : Disk} {p f : Path} {name target : Spelling} {names dest : List Spelling} {n : Nat}

/-- No link is on the way to the current directory, as the operating system has it. -/
def Grounded (disk : Disk) : Prop :=
  Clear disk.tree disk.current

/-- The names on the way from the root to a path, with every `..` cancelled. -/
def place (disk : Disk) (p : Path) : List Spelling :=
  (disk.absolute p).parts

theorem place_eq (disk : Disk) (p : Path) :
    disk.place p = Path.collapse (if p.isAbsolute then p.parts else disk.current ++ p.parts) := by
  simp only [place, absolute, Path.join, currentPath]
  split <;> rfl

/-! ### The spellings that come up on a way -/

/-- A path that may hold `..` only if it is relative. -/
def Spelled (p : Path) : Prop :=
  p.anchor = .relative ∨ p.anchor = .root ∧ (".." : Spelling) ∉ p.parts

theorem Spelled.root : Spelled Path.root :=
  .inr ⟨rfl, by simp [Path.root]⟩

theorem Spelled.child (h : Spelled p) (hname : name ≠ "..") : Spelled (p.child name) := by
  rcases h with h | ⟨h, hp⟩
  · exact .inl h
  · exact .inr ⟨h, by simp [Path.child, hp, Ne.symm hname]⟩

theorem Spelled.up (h : Spelled p) : Spelled p.up := by
  rcases h with h | ⟨h, hp⟩
  · left
    unfold Path.up
    split
    · exact h
    · split <;> exact h
    · exact h
  · right
    simp only [Path.up, h, Path.parent]
    exact ⟨trivial, fun hm => hp (List.dropLast_subset _ hm)⟩

theorem Spelled.absolute_eq (h : Spelled p) : disk.absolute p = ⟨.root, disk.place p⟩ := by
  unfold place
  rcases h with h | ⟨h, -⟩ <;> simp [absolute, Path.join, Path.isAbsolute, h, currentPath]

theorem place_root : disk.place Path.root = [] := rfl

theorem place_child (hname : name ≠ "..") : disk.place (p.child name) = disk.place p ++ [name] := by
  have habs : (p.child name).isAbsolute = p.isAbsolute := rfl
  rw [place_eq, place_eq, habs, ← Path.collapse_concat hname]
  cases p.isAbsolute <;> simp [Path.child]

theorem place_up (h : Spelled p) : disk.place p.up = (disk.place p).dropLast := by
  rcases h with h | ⟨h, hp⟩
  · rcases Path.up_relative h with hup | ⟨init, x, hx, rfl, hup⟩
    · rw [hup, place_eq, place_eq]
      simp only [Path.child, Path.isAbsolute, h]
      rw [← Path.collapse_concat_up]
      simp
    · rw [hup, place_eq, place_eq]
      simp only [Path.isAbsolute, bne_self_eq_false, Bool.false_eq_true, if_false]
      rw [← List.append_assoc, Path.collapse_concat hx, List.dropLast_concat]
  · have hup : p.up = p.parent := by simp [Path.up, h]
    have hdrop : (".." : Spelling) ∉ p.parts.dropLast := fun hm => hp (List.dropLast_subset _ hm)
    rw [hup, place_eq, place_eq]
    simp only [Path.parent, Path.isAbsolute, h]
    simp [Path.collapse_eq_self hp, Path.collapse_eq_self hdrop]

/-! ### Links that are being resolved -/

/-- Whoever follows the link at a place reaches another one, through a number of links. -/
def LinkLeads (tree : Node) (q : List Spelling) (n : Nat) (dest : List Spelling) : Prop :=
  ∃ dir name, q = dir ++ [name] ∧ Leads tree dir [name] n dest

theorem LinkLeads.unique {tree : Node} {q dest' : List Spelling} {n' : Nat}
    (h : LinkLeads tree q n dest) (h' : LinkLeads tree q n' dest') : n = n' ∧ dest = dest' := by
  obtain ⟨dir, name, rfl, hl⟩ := h
  obtain ⟨dir', name', heq, hl'⟩ := h'
  obtain ⟨rfl, hname⟩ := List.append_inj' heq rfl
  obtain rfl := List.singleton_inj.1 hname
  exact hl.unique hl'

/-- The links at some paths are different ones, and each takes more than `n` links to resolve. -/
structure Opens (disk : Disk) (opens : List Path) (n : Nat) : Prop where
  nodup : (opens.map disk.place).Nodup
  links : ∀ key ∈ opens, (disk.tree.linkTo? (disk.place key)).isSome
  pending : ∀ key ∈ opens, ∃ m dest, LinkLeads disk.tree (disk.place key) m dest ∧ n < m

variable {opens : List Path} {m : Nat} {mid : List Spelling}

theorem Opens.nil : Opens disk [] n :=
  ⟨by simp, by simp, by simp⟩

theorem Opens.mono (h : Opens disk opens n) (hm : m ≤ n) : Opens disk opens m :=
  ⟨h.nodup, h.links, fun key hk =>
    let ⟨k, dest, hl, hlt⟩ := h.pending key hk
    ⟨k, dest, hl, Nat.lt_of_le_of_lt hm hlt⟩⟩

theorem Opens.length_le (h : Opens disk opens n) : opens.length ≤ disk.tree.linkCount := by
  rw [← List.length_map disk.place]
  refine length_le_linkCount _ _ h.nodup fun q hq => ?_
  obtain ⟨key, hk, rfl⟩ := List.mem_map.1 hq
  exact h.links key hk

/-- A link on a way is none of those that take more links than the way. -/
theorem Opens.not_open (h : Opens disk opens n) {key : Path}
    (hl : LinkLeads disk.tree (disk.place key) m dest) (hm : m ≤ n) :
    disk.place key ∉ opens.map disk.place := by
  intro hmem
  obtain ⟨other, ho, heq⟩ := List.mem_map.1 hmem
  obtain ⟨k, d, hk, hlt⟩ := h.pending other ho
  rw [heq] at hk
  have := (hl.unique hk).1
  omega

theorem Opens.cons (h : Opens disk opens n) {key : Path}
    (hkey : disk.tree.linkTo? (disk.place key) = some target)
    (hl : LinkLeads disk.tree (disk.place key) (m + 1) dest) (hm : m + 1 ≤ n) :
    Opens disk (key :: opens) m := by
  refine ⟨?_, fun k hk => ?_, fun k hk => ?_⟩
  · rw [List.map_cons, List.nodup_cons]
    exact ⟨h.not_open hl hm, h.nodup⟩
  · rcases List.mem_cons.1 hk with rfl | hk
    · simp [hkey]
    · exact h.links k hk
  · rcases List.mem_cons.1 hk with rfl | hk
    · exact ⟨m + 1, dest, hl, m.lt_succ_self⟩
    · exact (h.mono (by omega : m ≤ n)).pending k hk

/-! ### Going along a way -/

/-- The record of a way is right: it says where links lead, and only those in `opens` are still
being resolved. -/
structure Way.Right (disk : Disk) (opens : List Path) (way : Way) : Prop where
  spelled : Spelled way.here
  known : ∀ key p, way.seen.lookup key = some (some p) →
    Spelled p ∧ ∃ n, LinkLeads disk.tree (disk.place key) n (disk.place p)
  opened : ∀ key, way.seen.lookup key = some none → key ∈ opens

variable {way : Way}

theorem Way.Right.at (h : way.Right disk opens) (hp : Spelled p) :
    ({ way with here := p } : Way).Right disk opens :=
  ⟨hp, h.known, h.opened⟩

/-- A link is entered. -/
theorem Way.Right.entered (h : way.Right disk opens) (key : Path) :
    ({ way with seen := (key, none) :: way.seen } : Way).Right disk (key :: opens) := by
  refine ⟨h.spelled, fun k p hk => ?_, fun k hk => ?_⟩
  · by_cases hkey : k = key
    · simp [hkey] at hk
    · have hb : (k == key) = false := by simp [hkey]
      exact h.known k p (by simpa [List.lookup_cons, hb] using hk)
  · by_cases hkey : k = key
    · simp [hkey]
    · have hb : (k == key) = false := by simp [hkey]
      exact List.mem_cons_of_mem _ (h.opened k (by simpa [List.lookup_cons, hb] using hk))

/-- A link that was entered is left. -/
theorem Way.Right.left {key : Path} (h : way.Right disk (key :: opens))
    (hl : LinkLeads disk.tree (disk.place key) n (disk.place way.here)) :
    ({ way with seen := (key, some way.here) :: way.seen } : Way).Right disk opens := by
  refine ⟨h.spelled, fun k p hk => ?_, fun k hk => ?_⟩
  · by_cases hkey : k = key
    · obtain rfl : way.here = p := by simpa [List.lookup_cons, hkey] using hk
      subst hkey
      exact ⟨h.spelled, n, hl⟩
    · have hb : (k == key) = false := by simp [hkey]
      exact h.known k p (by simpa [List.lookup_cons, hb] using hk)
  · by_cases hkey : k = key
    · simp [hkey] at hk
    · have hb : (k == key) = false := by simp [hkey]
      have := h.opened k (by simpa [List.lookup_cons, hb] using hk)
      exact (List.mem_cons.1 this).resolve_left hkey

/-- A way has come to the place `dest`, unless a path on it cannot be looked up. -/
def Arrives (disk : Disk) (opens : List Path) (dest : List Spelling) (r : Except Fault Course) :
    Prop :=
  r = .error .nulInPath ∨
    ∃ way : Way, r = .ok (.arrived way) ∧ way.Right disk opens ∧ disk.place way.here = dest

theorem linkAt?_eq_ok (h : p.NulFree) :
    disk.linkAt? p = .ok (disk.tree.linkTo? (disk.place p)) :=
  if_neg (Bool.eq_false_iff.1 h)

theorem linkAt?_cases (disk : Disk) (p : Path) :
    disk.linkAt? p = .error .nulInPath ∨
      disk.linkAt? p = .ok (disk.tree.linkTo? (disk.place p)) := by
  by_cases h : p.NulFree
  · exact .inr (linkAt?_eq_ok h)
  · exact .inl (if_pos (by simpa [Path.NulFree] using h))

theorem Arrives.of_error {r : Except Fault Course} (h : r = .error .nulInPath) :
    Arrives disk opens dest r :=
  .inl h

/-- `along` gets to where a way leads, provided that `enter` gets to where links lead. -/
theorem arrives_along {enter : Way → Spelling → Except Fault Course} {start : List Spelling}
    (henter : ∀ {key : Path} {way : Way} {target : Spelling} {m : Nat} {mid : List Spelling},
      way.Right disk (key :: opens) → Opens disk (key :: opens) m →
      Leads disk.tree (linkStart (disk.place way.here) target) (pieces target) m mid →
      Arrives disk (key :: opens) mid (enter way target))
    (hl : Leads disk.tree start names n dest) : ∀ {way : Way}, way.Right disk opens →
      disk.place way.here = start → Opens disk opens n →
      Arrives disk opens dest (disk.along enter way names) := by
  induction hl with
  | arrived =>
    intro way hw hs _
    exact .inr ⟨way, rfl, hw, hs⟩
  | stay hname _ ih =>
    intro way hw hs ho
    simp only [along, hname, Bool.not_false, if_true]
    exact ih hw hs ho
  | up _ ih =>
    intro way hw hs ho
    have hup : Path.counts (".." : Spelling) = true := by decide
    simp only [along, hup, Bool.not_true, Bool.false_eq_true, if_false, if_true]
    exact ih (hw.at hw.spelled.up) (by rw [place_up hw.spelled, hs]) ho
  | @enter place _ _ name _ hname hlink _ ih =>
    intro way hw hs ho
    have hplace : disk.place (way.here.child name) = place ++ [name] := by
      rw [place_child hname.2, hs]
    simp only [along, hname.1, hname.2, Bool.not_true, Bool.false_eq_true, if_false]
    rcases disk.linkAt?_cases (way.here.child name) with hat | hat
    · rw [hat]
      exact .of_error rfl
    · rw [hat, hplace, hlink]
      exact ih (hw.at (hw.spelled.child hname.2)) hplace ho
  | @link place rest mid dest name target m n hname hlink inner _ _ ih =>
    intro way hw hs ho
    have hplace : disk.place (way.here.child name) = place ++ [name] := by
      rw [place_child hname.2, hs]
    have hleads : LinkLeads disk.tree (disk.place (way.here.child name)) (m + 1) mid :=
      ⟨place, name, hplace, .link hname hlink inner .arrived⟩
    simp only [along, hname.1, hname.2, Bool.not_true, Bool.false_eq_true, if_false]
    rcases disk.linkAt?_cases (way.here.child name) with hat | hat
    · rw [hat]
      exact .of_error rfl
    rw [hat, hplace, hlink]
    dsimp only
    cases hseen : way.seen.lookup (way.here.child name) with
    | some value =>
      -- a link met again leads where it led before; were it still open, the tree would have a loop
      cases value with
      | some known =>
        obtain ⟨hspelled, k, hk⟩ := hw.known _ _ hseen
        exact ih (hw.at hspelled) (hk.unique hleads).2 (ho.mono (by omega))
      | none =>
        have hopen := List.mem_map_of_mem (f := disk.place) (hw.opened _ hseen)
        exact absurd hopen (ho.not_open hleads (by omega))
    | none =>
      -- a new link is entered, and the way goes on from where it leads
      have hcons : Opens disk (way.here.child name :: opens) m :=
        ho.cons (by rw [hplace, hlink]) hleads (by omega)
      have hstart : linkStart (disk.place way.here) target = linkStart place target := by rw [hs]
      rcases henter (hw.entered (way.here.child name)) hcons (hstart ▸ inner) with
        he | ⟨w, he, hr, hm⟩
      · rw [he]
        exact .of_error rfl
      · rw [he]
        exact ih (hr.left (hm ▸ hleads)) hm (ho.mono (by omega))

/-- `follow` gets to where a way leads if it may enter all links that are not open. -/
theorem arrives_follow (depth : Nat) {opens : List Path} {way : Way}
    (hl : Leads disk.tree (disk.place way.here) names n dest) (hw : way.Right disk opens)
    (ho : Opens disk opens n) (hd : disk.tree.linkCount ≤ depth + opens.length) :
    Arrives disk opens dest (disk.follow depth way names) := by
  induction depth generalizing opens way names n dest with
  | zero =>
    -- all links are open, so there is none that could be entered
    refine arrives_along (fun _ ho' _ => ?_) hl hw rfl ho
    have := ho'.length_le
    simp only [List.length_cons] at this
    omega
  | succ depth ih =>
    refine arrives_along (fun {key way target m mid} hw' ho' hl' => ?_) hl hw rfl ho
    have hd' : disk.tree.linkCount ≤ depth + (key :: opens).length := by
      simp only [List.length_cons]
      omega
    let start := if (Path.ofText target).isAbsolute then Path.root else way.here
    have hspelled : Spelled start := by
      by_cases h : (Path.ofText target).isAbsolute
      · simpa [start, h] using Spelled.root
      · simpa [start, h] using hw'.spelled
    have hplace : disk.place start = linkStart (disk.place way.here) target := by
      by_cases h : (Path.ofText target).isAbsolute <;> simp [start, linkStart, h, place_root]
    exact ih (hplace ▸ hl') (hw'.at hspelled) ho' hd'

theorem spelled_start (p : Path) : Spelled (start p) := by
  cases h : p.isAbsolute
  · exact .inl (by simp [start, h])
  · exact .inr ⟨by simp [start, h], by simp [start]⟩

theorem place_start (hdisk : disk.Grounded) (p : Path) :
    disk.place (start p) = if p.isAbsolute then [] else disk.current := by
  have hcurrent : Path.collapse disk.current = disk.current :=
    Path.collapse_eq_self fun h => (hdisk.names _ h).2 rfl
  have habs : (start p).isAbsolute = p.isAbsolute := by
    cases h : p.isAbsolute <;> simp only [start, h] <;> rfl
  rw [place_eq, habs]
  cases p.isAbsolute
  · simpa [start] using hcurrent
  · simp [start, Path.collapse]

/-- A path is resolved to the place that its way leads to. -/
theorem resolve_of_leads (hl : Leads disk.tree (disk.place (start p)) p.parts n dest) :
    disk.resolve p = .error .nulInPath ∨ disk.resolve p = .ok (some ⟨.root, dest⟩) := by
  have hright : ({ here := start p } : Way).Right disk [] :=
    ⟨spelled_start p, by simp, by simp⟩
  have hdepth : disk.tree.linkCount ≤ disk.linkDepth + ([] : List Path).length :=
    Nat.le_mul_of_pos_left _ (by omega)
  unfold resolve
  rcases arrives_follow disk.linkDepth hl hright .nil hdepth with h | ⟨w, h, hw, hd⟩
  · left
    rw [h]
  · right
    rw [h]
    dsimp only
    rw [hw.spelled.absolute_eq, hd]

/-! ### Canonical paths -/

/-- Names that no link is on the way to are gone along as they are. -/
theorem along_append_of_clear (enter : Way → Spelling → Except Fault Course)
    (seen : List (Path × Option Path)) {before : List Spelling}
    (hc : Clear disk.tree (before ++ names)) (hn : Path.NulFree ⟨.root, before ++ names⟩)
    (rest : List Spelling) : disk.along enter ⟨⟨.root, before⟩, seen⟩ (names ++ rest) =
      disk.along enter ⟨⟨.root, before ++ names⟩, seen⟩ rest := by
  induction names generalizing before with
  | nil => simp
  | cons name others ih =>
    have happ : before ++ name :: others = (before ++ [name]) ++ others := by simp
    have hname : IsName name := hc.names name (by simp)
    have hfirst : Clear disk.tree (before ++ [name]) :=
      hc.of_prefix ⟨others, happ.symm⟩
    have hplace : disk.place ⟨.root, before ++ [name]⟩ = before ++ [name] := by
      rw [place_eq]
      exact Path.collapse_eq_self fun h => (hfirst.names _ h).2 rfl
    have hat : disk.linkAt? ⟨.root, before ++ [name]⟩ = .ok none := by
      have hnul : Path.NulFree ⟨.root, before ++ [name]⟩ := by
        rw [Path.NulFree, happ, List.any_append, Bool.or_eq_false_iff] at hn
        exact hn.1
      rw [linkAt?_eq_ok hnul, hplace, hfirst.linkless _ (by simp) (List.prefix_refl _)]
    rw [happ] at hc hn ⊢
    simp only [List.cons_append, along, hname.1, hname.2, Path.child, hat, Bool.not_true,
      Bool.false_eq_true, if_false]
    exact ih hc hn

theorem along_of_clear {enter : Way → Spelling → Except Fault Course}
    {seen : List (Path × Option Path)} {before : List Spelling}
    (hc : Clear disk.tree (before ++ names)) (hn : Path.NulFree ⟨.root, before ++ names⟩) :
    disk.along enter ⟨⟨.root, before⟩, seen⟩ names =
      .ok (.arrived ⟨⟨.root, before ++ names⟩, seen⟩) := by
  have h := along_append_of_clear enter seen hc hn []
  rwa [List.append_nil, along] at h

/-- The operating system meets no link on the way to a clear place. -/
theorem reach_of_clear {tree : Node} {before : List Spelling}
    (hc : Clear tree (before.reverse ++ names)) (q : List Spelling) (target : Spelling)
    (rest : List Spelling) : reach tree before names ≠ .link q target rest := by
  induction names generalizing before with
  | nil => simp [reach]
  | cons name others ih =>
    have hname : IsName name := hc.names name (by simp)
    have hcount : ¬ (name = [] ∨ name = ".") := by
      have := hname.1
      simpa [Path.counts] using this
    have hfirst : tree.linkTo? (name :: before).reverse = none :=
      hc.linkless _ (by simp) ⟨others, by simp⟩
    simp only [reach]
    split
    · rw [if_neg hcount, if_neg hname.2]
      split
      · simp
      · next h =>
        rw [linkTo?, h] at hfirst
        simp at hfirst
      · exact ih (by simpa using hc)
    · simp

theorem stat_of_clear (hc : Clear disk.tree names) : disk.stat ⟨.root, names⟩ ≠ .looping := by
  have hc' : Clear disk.tree (([] : List Spelling).reverse ++ names) := hc
  have hr := reach_of_clear hc'
  have hjoin : (disk.currentPath.join ⟨.root, names⟩).parts = names := rfl
  unfold stat
  rw [hjoin, sight]
  split
  · simp
  · split <;> simp
  · next q target rest h => exact absurd h (hr q target rest)

theorem settled_of_clear (hc : Clear disk.tree names) (hn : Path.NulFree ⟨.root, names⟩) :
    disk.settled p (some ⟨.root, names⟩) = .ok ⟨.root, names⟩ := by
  have hs := stat_of_clear hc
  refine (if_neg (Bool.eq_false_iff.1 hn)).trans ?_
  split
  · next h => exact absurd h hs
  · rfl

/-- A way that meets no link leads to the canonical path. -/
theorem canonical_of_along (hc : Clear disk.tree dest) (hn : Path.NulFree ⟨.root, dest⟩)
    (h : ∀ enter, disk.along enter { here := Path.root } names =
      .ok (.arrived { here := ⟨.root, dest⟩ })) :
    disk.canonical ⟨.root, names⟩ = .ok ⟨.root, dest⟩ := by
  have hfollow : disk.follow disk.linkDepth { here := Path.root } names =
      .ok (.arrived { here := ⟨.root, dest⟩ }) := by
    cases disk.linkDepth
    · exact h _
    · exact h _
  have hresolve : disk.resolve ⟨.root, names⟩ = .ok (some ⟨.root, dest⟩) := by
    have habs : disk.absolute ⟨.root, dest⟩ = ⟨.root, dest⟩ := by
      have hup : (".." : Spelling) ∉ dest := fun h => (hc.names _ h).2 rfl
      simp [absolute, Path.join, Path.isAbsolute, Path.collapse_eq_self hup]
    have hstart : start ⟨.root, names⟩ = Path.root := rfl
    unfold resolve
    rw [hstart, hfollow]
    dsimp only
    rw [habs]
  unfold canonical expandHome
  simp only [ok_bind, hresolve]
  exact settled_of_clear hc hn

/-- A path that no link is on the way to is canonical as it is. -/
theorem canonical_of_clear (hc : Clear disk.tree names) (hn : Path.NulFree ⟨.root, names⟩) :
    disk.canonical ⟨.root, names⟩ = .ok ⟨.root, names⟩ := by
  have hc' : Clear disk.tree ([] ++ names) := hc
  exact canonical_of_along hc hn fun _ => along_of_clear hc' hn

theorem isAbsolute_absolute (disk : Disk) (p : Path) : (disk.absolute p).isAbsolute = true := by
  unfold absolute Path.join
  dsimp only
  split
  · assumption
  · rfl

theorem isAbsolute_of_resolve {q : Path} (h : disk.resolve p = .ok (some q)) :
    q.isAbsolute = true := by
  unfold resolve at h
  split at h
  · simp at h
  next way _ =>
    rw [← Option.some.inj (Except.ok.inj h)]
    exact isAbsolute_absolute disk way.here
  next q' _ =>
    rw [← Option.some.inj (Except.ok.inj h)]
    exact isAbsolute_absolute disk q'
  · simp at h

theorem canonical_eq_ok (h : disk.canonical p = .ok f) :
    ∃ q resolved, disk.expandHome p = .ok q ∧ disk.resolve q = .ok resolved ∧
      disk.settled q resolved = .ok f := by
  obtain ⟨q, hq, h⟩ := bind_eq_ok.1 h
  obtain ⟨resolved, hr, h⟩ := bind_eq_ok.1 h
  exact ⟨q, resolved, hq, hr, h⟩

/-- Canonical paths are absolute, with loops on the way or not. -/
theorem isAbsolute_of_canonical (h : disk.canonical p = .ok f) : f.isAbsolute = true := by
  obtain ⟨q, resolved, -, hr, h⟩ := canonical_eq_ok h
  unfold settled at h
  split at h
  · rw [← Except.ok.inj h]
    exact isAbsolute_absolute disk q
  next r =>
    split at h
    · simp at h
    split at h
    · rw [← Except.ok.inj h]
      exact isAbsolute_absolute disk q
    · rw [← Except.ok.inj h]
      exact isAbsolute_of_resolve hr

/-- In a tree without loops, the canonical path of a file is the place that its way leads to, and
no link is on the way there. -/
theorem leads_of_canonical (hdisk : disk.Grounded) (hfree : disk.tree.LoopFree)
    (h : disk.canonical p = .ok f) : ∃ q n, disk.expandHome p = .ok q ∧
      Leads disk.tree (disk.place (start q)) q.parts n f.parts ∧
      f.anchor = .root ∧ Clear disk.tree f.parts ∧ f.NulFree := by
  obtain ⟨q, resolved, hq, hresolved, h⟩ := canonical_eq_ok h
  obtain ⟨n, dest, hl⟩ := hfree (disk.place (start q)) q.parts
  have hclear : Clear disk.tree dest := by
    refine Clear.of_leads hl ?_
    rw [place_start hdisk]
    split
    · exact .nil
    · exact hdisk
  -- the way to `q` has an end, and `settled` finds no link on the way to the place it leads to
  rcases resolve_of_leads hl with hr | hr
  · simp [hr] at hresolved
  · obtain rfl := Except.ok.inj (hr.symm.trans hresolved)
    cases hnul : dest.any (·.contains '\x00') with
    | true =>
      simp only [settled, hnul, if_true] at h
      cases h
    | false =>
      rw [settled_of_clear hclear hnul] at h
      obtain rfl := Except.ok.inj h
      exact ⟨q, n, hq, hl, rfl, hclear, hnul⟩

theorem clear_of_canonical (hdisk : disk.Grounded) (hfree : disk.tree.LoopFree)
    (h : disk.canonical p = .ok f) :
    f.anchor = .root ∧ Clear disk.tree f.parts ∧ f.NulFree := by
  obtain ⟨-, -, -, -, hf⟩ := leads_of_canonical hdisk hfree h
  exact hf

/-- In a tree without loops the canonical path of a file is canonical. -/
theorem canonical_canonical (hdisk : disk.Grounded) (hfree : disk.tree.LoopFree)
    (h : disk.canonical p = .ok f) : disk.canonical f = .ok f := by
  obtain ⟨anchor, names⟩ := f
  obtain ⟨ha, hc, hn⟩ := clear_of_canonical hdisk hfree h
  obtain rfl : anchor = .root := ha
  exact canonical_of_clear hc hn

end Disk

end LintBridge
