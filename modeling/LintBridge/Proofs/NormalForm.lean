import LintBridge.Proofs.Invocation

/-!
# LintBridge.Proofs.NormalForm

What the canonical path of a file is good for. The first half is about names without the character
U+0000, which no name on a disk holds: along such names every way can be looked up, with loops in
the tree or not (`Disk.canonical_isOk`).

The second half brings in the operating system. `Node.Finds` is its way through a tree, for which
everything on the way has to exist, and `Disk.finds_of_stat` ties it to `Disk.stat`. Where it gets
to anything, `Node.Leads` gets to the same place.

Main result: `Disk.canonical_normalForm`.
-/

namespace LintBridge

namespace Path

variable {p q : Path} {parts : List Spelling} {text : Spelling}

/-- No part holds the character U+0000. -/
def Clean (parts : List Spelling) : Prop :=
  ∀ part ∈ parts, .char '\x00' ∉ part

theorem nulFree_iff : p.NulFree ↔ Clean p.parts := by
  simp [NulFree, Clean]

theorem Clean.of_subset {parts' : List Spelling} (h : Clean parts) (hsub : parts' ⊆ parts) :
    Clean parts' :=
  fun part hpart => h part (hsub hpart)

theorem Clean.append {parts' : List Spelling} (h : Clean parts) (h' : Clean parts') :
    Clean (parts ++ parts') :=
  fun part hpart => (List.mem_append.1 hpart).elim (h part) (h' part)

theorem clean_nil : Clean [] :=
  fun _ hpart => absurd hpart List.not_mem_nil

/-- A piece of a text holds only letters of the text. -/
theorem subset_of_mem_pieces {piece : Spelling} (h : piece ∈ pieces text) : piece ⊆ text := by
  unfold pieces at h
  induction text generalizing piece with
  | nil =>
    have hnil : piece = [] := by simpa [List.splitOn] using h
    rw [hnil]
    exact List.nil_subset _
  | cons c rest ih =>
    rw [List.splitOn_cons_eq_if_modifyHead] at h
    split at h
    · rcases List.mem_cons.1 h with rfl | h
      · exact List.nil_subset _
      · exact List.Subset.trans (ih h) (List.subset_cons_self c rest)
    · cases hrest : rest.splitOn (.char '/') with
      | nil => simp [hrest] at h
      | cons first others =>
        rw [hrest] at ih h
        rcases List.mem_cons.1 h with rfl | h
        · exact List.cons_subset_cons c (ih List.mem_cons_self)
        · exact List.Subset.trans (ih (List.mem_cons_of_mem _ h)) (List.subset_cons_self c rest)

theorem clean_pieces (h : .char '\x00' ∉ text) : Clean (pieces text) :=
  fun _ hpart hmem => h (subset_of_mem_pieces hpart hmem)

theorem Clean.ofPieces (h : Clean parts) : Clean (Path.ofPieces parts).parts :=
  h.of_subset (List.filter_subset_self _)

theorem clean_ofText (h : .char '\x00' ∉ text) : Clean (ofText text).parts :=
  (clean_pieces h).ofPieces

theorem Clean.join (hp : Clean p.parts) (hq : Clean q.parts) : Clean (p.join q).parts := by
  unfold Path.join
  split
  · exact hq
  · exact hp.append hq

theorem Clean.child (h : Clean p.parts) {name : Spelling} (hname : .char '\x00' ∉ name) :
    Clean (p.child name).parts :=
  h.append fun part hpart => by rwa [List.mem_singleton.1 hpart]

theorem Clean.up (h : Clean p.parts) : Clean p.up.parts := by
  have hup : .char '\x00' ∉ (".." : Spelling) := by decide
  unfold Path.up
  split
  · exact h.child hup
  · split
    · exact h.child hup
    · exact h.of_subset (List.dropLast_subset _)
  · exact h.of_subset (List.dropLast_subset _)

/-- What is left when every `..` has cancelled a part was there before. -/
theorem collapse_subset (parts : List Spelling) : collapse parts ⊆ parts := by
  induction parts using List.reverseRecOn with
  | nil => exact List.nil_subset _
  | append_singleton parts name ih =>
    have hbefore := List.Subset.trans ih (List.subset_append_left parts [name])
    by_cases hname : name = ".."
    · rw [hname, collapse_concat_up, ← hname]
      exact List.Subset.trans (List.dropLast_subset _) hbefore
    · rw [collapse_concat hname]
      exact List.append_subset.2 ⟨hbefore, List.subset_append_right parts [name]⟩

end Path

namespace Disk

open Node LintBridge.Path

variable {disk : Disk} {p q f : Path} {names dest : List Spelling}

/-! ### Names without U+0000 -/

/-- No name that paths start from and no link target holds the character U+0000, which ends a text
for the operating system. -/
structure Spellable (disk : Disk) : Prop where
  current : Clean disk.current
  targets : ∀ place target, disk.tree.linkTo? place = some target → .char '\x00' ∉ target
  homes : ∀ user home, disk.homes.lookup user = some home → .char '\x00' ∉ home

/-- Neither where the way has led nor where the links on it lead is spelled with U+0000. -/
structure Way.Clean (way : Way) : Prop where
  here : Path.Clean way.here.parts
  known : ∀ key known, way.seen.lookup key = some (some known) → Path.Clean known.parts

theorem Way.Clean.at {way : Way} (h : way.Clean) (hp : Path.Clean p.parts) :
    { way with here := p }.Clean :=
  ⟨hp, h.known⟩

theorem Way.Clean.seen {way : Way} (h : way.Clean) (key : Path) (value : Option Path)
    (hvalue : ∀ known, value = some known → Path.Clean known.parts) :
    { way with seen := (key, value) :: way.seen }.Clean := by
  refine ⟨h.here, fun other known hknown => ?_⟩
  rw [List.lookup_cons] at hknown
  split at hknown
  · exact hvalue known (Option.some.inj hknown)
  · exact h.known other known hknown

/-- The same for how a way ends. -/
def Course.Clean : Course → Prop
  | .arrived way => way.Clean
  | .looping p => Path.Clean p.parts
  | .endless => True

/-- Every way along names without U+0000 has an end, provided that the ways along the targets of
links have one. -/
theorem along_isOk (hdisk : disk.Spellable) {enter : Way → Spelling → Except Fault Course}
    (henter : ∀ {way : Way} {target : Spelling}, way.Clean → .char '\x00' ∉ target →
      ∃ course, enter way target = .ok course ∧ course.Clean)
    {way : Way} (hway : way.Clean) (hnames : Path.Clean names) :
    ∃ course, disk.along enter way names = .ok course ∧ course.Clean := by
  induction names generalizing way with
  | nil => exact ⟨.arrived way, rfl, hway⟩
  | cons name rest ih =>
    have hrest : Path.Clean rest := hnames.of_subset (List.subset_cons_self name rest)
    have hname : .char '\x00' ∉ name := hnames name List.mem_cons_self
    have hnext := hway.here.child hname
    rw [along]
    split
    · exact ih hway hrest
    split
    · exact ih (hway.at hway.here.up) hrest
    dsimp only
    rw [linkAt?_eq_ok (nulFree_iff.2 hnext)]
    cases hlink : disk.tree.linkTo? (disk.place (way.here.child name)) with
    | none => exact ih (hway.at hnext) hrest
    | some target =>
      dsimp only
      cases hseen : way.seen.lookup (way.here.child name) with
      | some value =>
        cases value with
        | some known => exact ih (hway.at (hway.known _ _ hseen)) hrest
        | none => exact ⟨_, rfl, hnext.join hrest.ofPieces⟩
      | none =>
        have hopened := hway.seen (way.here.child name) none (by simp)
        obtain ⟨course, hcourse, hclean⟩ := henter hopened (hdisk.targets _ _ hlink)
        dsimp only
        rw [hcourse]
        cases course with
        | arrived way' =>
          refine ih (hclean.seen _ _ fun known hknown => ?_) hrest
          rw [← Option.some.inj hknown]
          exact hclean.here
        | looping q => exact ⟨_, rfl, Path.Clean.join hclean hrest.ofPieces⟩
        | endless => exact ⟨_, rfl, trivial⟩

theorem follow_isOk (hdisk : disk.Spellable) (depth : Nat) {way : Way} (hway : way.Clean)
    (hnames : Path.Clean names) :
    ∃ course, disk.follow depth way names = .ok course ∧ course.Clean := by
  induction depth generalizing way names with
  | zero => exact along_isOk hdisk (fun _ _ => ⟨.endless, rfl, trivial⟩) hway hnames
  | succ depth ih =>
    refine along_isOk hdisk (fun {way target} hway htarget => ?_) hway hnames
    refine ih (hway.at ?_) (clean_pieces htarget)
    split
    · exact clean_nil
    · exact hway.here

theorem clean_absolute (hdisk : disk.Spellable) (hp : Path.Clean p.parts) :
    Path.Clean (disk.absolute p).parts :=
  (Path.Clean.join (p := disk.currentPath) hdisk.current hp).of_subset (collapse_subset _)

theorem resolve_isOk (hdisk : disk.Spellable) (hp : Path.Clean p.parts) :
    ∃ resolved, disk.resolve p = .ok resolved ∧ ∀ q, resolved = some q → Path.Clean q.parts := by
  have hstart : ({ here := start p } : Way).Clean := ⟨clean_nil, by simp⟩
  obtain ⟨course, hcourse, hclean⟩ := follow_isOk hdisk disk.linkDepth hstart hp
  unfold resolve
  rw [hcourse]
  cases course with
  | arrived way =>
    exact ⟨_, rfl, fun q hq => Option.some.inj hq ▸ clean_absolute hdisk hclean.here⟩
  | looping r => exact ⟨_, rfl, fun q hq => Option.some.inj hq ▸ clean_absolute hdisk hclean⟩
  | endless => exact ⟨none, rfl, by simp⟩

theorem settled_isOk (hdisk : disk.Spellable) (hp : Path.Clean p.parts) {resolved : Option Path}
    (hresolved : ∀ q, resolved = some q → Path.Clean q.parts) :
    ∃ f, disk.settled p resolved = .ok f ∧ f.NulFree := by
  have habsolute := nulFree_iff.2 (clean_absolute hdisk hp)
  cases resolved with
  | none => exact ⟨_, rfl, habsolute⟩
  | some q =>
    have hq : q.NulFree := nulFree_iff.2 (hresolved q rfl)
    have hparts : (q.parts.any (·.contains '\x00')) = false := hq
    simp only [settled, hparts, Bool.false_eq_true, if_false]
    split
    · exact ⟨_, rfl, habsolute⟩
    · exact ⟨_, rfl, hq⟩

theorem clean_expandHome (hdisk : disk.Spellable) (hp : Path.Clean p.parts)
    (h : disk.expandHome p = .ok q) : Path.Clean q.parts := by
  unfold expandHome at h
  split at h
  next first rest _ hparts =>
    have hrest : Path.Clean rest := by
      rw [hparts] at hp
      exact hp.of_subset (List.subset_cons_self first rest)
    split at h
    · split at h
      · cases h
      · split at h
        next home hhome =>
          rw [← Except.ok.inj h]
          exact (clean_ofText (hdisk.homes _ _ hhome)).join hrest
        · cases h
    · exact Except.ok.inj h ▸ hp
  · exact Except.ok.inj h ▸ hp

/-- Every path without U+0000 has a canonical path without U+0000, if its `~` stands for a home
directory. -/
theorem canonical_isOk (hdisk : disk.Spellable) (hp : p.NulFree) (hq : disk.expandHome p = .ok q) :
    ∃ f, disk.canonical p = .ok f ∧ f.NulFree := by
  have hclean := clean_expandHome hdisk (nulFree_iff.1 hp) hq
  obtain ⟨resolved, hresolved, hnul⟩ := resolve_isOk hdisk hclean
  obtain ⟨f, hf, hfnul⟩ := settled_isOk hdisk hclean hnul
  refine ⟨f, ?_, hfnul⟩
  unfold canonical
  rw [hq, ok_bind, hresolved, ok_bind, hf]

end Disk

/-! ### Paths that can be resolved again -/

/-- A path from the root without U+0000. -/
structure Path.Rooted (p : Path) : Prop where
  absolute : p.isAbsolute = true
  nulFree : p.NulFree

namespace Disk

variable {disk : Disk} {p q f : Path}

theorem rooted_of_canonical (hdisk : disk.Spellable) (hp : p.NulFree)
    (h : disk.canonical p = .ok f) : f.Rooted := by
  obtain ⟨q, -, hq, -⟩ := canonical_eq_ok h
  obtain ⟨f', hf', hnul⟩ := canonical_isOk hdisk hp hq
  obtain rfl := Except.ok.inj (hf'.symm.trans h)
  exact ⟨isAbsolute_of_canonical h, hnul⟩

theorem expandHome_of_isAbsolute (h : p.isAbsolute = true) : disk.expandHome p = .ok p := by
  unfold expandHome
  split
  next hrelative _ => simp [Path.isAbsolute, hrelative] at h
  next => rfl

theorem canonical_of_rooted (hdisk : disk.Spellable) (h : p.Rooted) :
    ∃ f, disk.canonical p = .ok f ∧ f.Rooted := by
  obtain ⟨f, hf, -⟩ := canonical_isOk hdisk h.nulFree (expandHome_of_isAbsolute h.absolute)
  exact ⟨f, hf, rooted_of_canonical hdisk h.nulFree hf⟩

end Disk

/-! ### What the operating system finds -/

namespace Node

variable {tree node : Node} {place names rest dest : List Spelling} {n : Nat}

/-- There is a directory at a place. -/
def IsDirectory (tree : Node) (place : List Spelling) : Prop :=
  ∃ entries, tree.find? place = some (.directory entries)

/-- Whoever follows the names from a place, from one directory that exists to another, comes to a
place where there is something. -/
inductive Finds (tree : Node) : List Spelling → List Spelling → List Spelling → Prop where
  | found {place : List Spelling} {node : Node} (hnode : tree.find? place = some node) :
      Finds tree place [] place
  | stay {place rest dest : List Spelling} {name : Spelling} (hplace : tree.IsDirectory place)
      (hname : Path.counts name = false) (next : Finds tree place rest dest) :
      Finds tree place (name :: rest) dest
  | up {place rest dest : List Spelling} (hplace : tree.IsDirectory place)
      (next : Finds tree place.dropLast rest dest) : Finds tree place (".." :: rest) dest
  | enter {place rest dest : List Spelling} {name : Spelling} (hplace : tree.IsDirectory place)
      (hname : IsName name) (hlink : tree.linkTo? (place ++ [name]) = none)
      (next : Finds tree (place ++ [name]) rest dest) : Finds tree place (name :: rest) dest
  | link {place rest dest : List Spelling} {name target : Spelling}
      (hplace : tree.IsDirectory place) (hname : IsName name)
      (hlink : tree.linkTo? (place ++ [name]) = some target)
      (next : Finds tree (linkStart place target) (pieces target ++ rest) dest) :
      Finds tree place (name :: rest) dest

/-- Names that no link is on the way to lead where they say. -/
theorem Clear.leads (h : Clear tree (place ++ names)) :
    Leads tree place names 0 (place ++ names) := by
  induction names generalizing place with
  | nil => simpa using Leads.arrived
  | cons name rest ih =>
    have hall : place ++ name :: rest = place ++ [name] ++ rest := by simp
    rw [hall] at h ⊢
    exact .enter (h.names name (by simp)) (h.linkless _ (by simp) (List.prefix_append _ _)) (ih h)

/-- A way along two lists of names leads along the one and then along the other. -/
theorem Leads.split (h : Leads tree place (names ++ rest) n dest) :
    ∃ m mid k, Leads tree place names m mid ∧ Leads tree mid rest k dest := by
  generalize hall : names ++ rest = all at h
  induction h generalizing names with
  | arrived =>
    obtain ⟨rfl, rfl⟩ := List.append_eq_nil_iff.1 hall
    exact ⟨0, _, 0, .arrived, .arrived⟩
  | stay hname next ih =>
    rcases List.append_eq_cons_iff.1 hall with ⟨rfl, rfl⟩ | ⟨names, rfl, rfl⟩
    · exact ⟨0, _, _, .arrived, .stay hname next⟩
    · obtain ⟨m, mid, k, hfirst, hsecond⟩ := ih rfl
      exact ⟨m, mid, k, .stay hname hfirst, hsecond⟩
  | up next ih =>
    rcases List.append_eq_cons_iff.1 hall with ⟨rfl, rfl⟩ | ⟨names, rfl, rfl⟩
    · exact ⟨0, _, _, .arrived, .up next⟩
    · obtain ⟨m, mid, k, hfirst, hsecond⟩ := ih rfl
      exact ⟨m, mid, k, .up hfirst, hsecond⟩
  | enter hname hlink next ih =>
    rcases List.append_eq_cons_iff.1 hall with ⟨rfl, rfl⟩ | ⟨names, rfl, rfl⟩
    · exact ⟨0, _, _, .arrived, .enter hname hlink next⟩
    · obtain ⟨m, mid, k, hfirst, hsecond⟩ := ih rfl
      exact ⟨m, mid, k, .enter hname hlink hfirst, hsecond⟩
  | link hname hlink inner next _ ih =>
    rcases List.append_eq_cons_iff.1 hall with ⟨rfl, rfl⟩ | ⟨names, rfl, rfl⟩
    · exact ⟨0, _, _, .arrived, .link hname hlink inner next⟩
    · obtain ⟨m, mid, k, hfirst, hsecond⟩ := ih rfl
      exact ⟨_, mid, k, .link hname hlink inner hfirst, hsecond⟩

/-- A way that finds something leads there. -/
theorem Finds.leads (h : Finds tree place names dest) : ∃ n, Leads tree place names n dest := by
  induction h with
  | found _ => exact ⟨0, .arrived⟩
  | stay _ hname _ ih =>
    obtain ⟨n, hl⟩ := ih
    exact ⟨n, .stay hname hl⟩
  | up _ _ ih =>
    obtain ⟨n, hl⟩ := ih
    exact ⟨n, .up hl⟩
  | enter _ hname hlink _ ih =>
    obtain ⟨n, hl⟩ := ih
    exact ⟨n, .enter hname hlink hl⟩
  | link _ hname hlink _ ih =>
    -- the target and the rest are one way for the operating system
    obtain ⟨n, hl⟩ := ih
    obtain ⟨m, mid, k, hinner, hnext⟩ := hl.split
    exact ⟨_, .link hname hlink hinner hnext⟩

end Node

namespace Disk

open Node LintBridge.Path

variable {disk : Disk} {p q f : Path} {names dest : List Spelling} {tree : Node}

theorem counts_eq_false_iff (name : Spelling) :
    Path.counts name = false ↔ name = [] ∨ name = "." := by
  simp [Path.counts, Classical.or_iff_not_imp_left]

theorem isName_of_not {name : Spelling} (hcounts : ¬ (name = [] ∨ name = ".")) (hup : name ≠ "..") :
    IsName name :=
  ⟨by rwa [← Bool.not_eq_false, counts_eq_false_iff], hup⟩

/-- Whether the operating system finds something at `dest` once it has got so far. -/
def Reach.Finds (tree : Node) (dest : List Spelling) : Reach → Prop
  | .at place => Node.Finds tree place.reverse [] dest
  | .missing => False
  | .link place target rest =>
    Node.Finds tree (linkStart place.reverse target) (pieces target ++ rest) dest

/-- What is found past the first link is found. -/
theorem Reach.Finds.finds {place : List Spelling} (h : (reach tree place names).Finds tree dest) :
    Node.Finds tree place.reverse names dest := by
  fun_induction reach tree place names with
  | case1 place => exact h
  | case2 place name rest entries hplace hstay ih =>
    exact .stay ⟨entries, hplace⟩ ((counts_eq_false_iff name).2 hstay) (ih h)
  | case3 place rest entries hplace hcounts ih =>
    have hnext := ih h
    rw [← List.dropLast_reverse] at hnext
    exact .up ⟨entries, hplace⟩ hnext
  | case4 place name rest entries hplace hcounts hup hmissing => exact h.elim
  | case5 place name rest entries hplace hcounts hup target hlink =>
    rw [List.reverse_cons] at hlink
    exact .link ⟨entries, hplace⟩ (isName_of_not hcounts hup) (by rw [linkTo?, hlink]) h
  | case6 place name rest entries hplace hcounts hup node hlink hnode ih =>
    have hnext := ih h
    rw [List.reverse_cons] at hnode hnext
    refine .enter ⟨entries, hplace⟩ (isName_of_not hcounts hup) ?_ hnext
    rw [linkTo?, hnode]
    cases node with
    | link target => exact (hlink target rfl).elim
    | file bytes executable => rfl
    | directory entries => rfl
  | case7 place name rest hplace => exact h.elim

/-- A longer path is followed from where a shorter one has led. -/
theorem reach_append {place : List Spelling} (names rest : List Spelling) :
    reach tree place (names ++ rest) =
      match reach tree place names with
      | .at last => reach tree last rest
      | .missing => .missing
      | .link inner target others => .link inner target (others ++ rest) := by
  fun_induction reach tree place names with
  | case1 place => rfl
  | case2 place name others entries hplace hstay ih =>
    rw [List.cons_append, reach, hplace, ← ih]
    exact if_pos hstay
  | case3 place others entries hplace hcounts ih =>
    rw [List.cons_append, reach, hplace, ← ih]
    rfl
  | case4 place name others entries hplace hcounts hup hmissing =>
    rw [List.cons_append, reach, hplace]
    simp only [if_neg hcounts, if_neg hup, hmissing]
  | case5 place name others entries hplace hcounts hup target hlink =>
    rw [List.cons_append, reach, hplace]
    simp only [if_neg hcounts, if_neg hup, hlink]
  | case6 place name others entries hplace hcounts hup node hlink hnode ih =>
    rw [List.cons_append, reach, hplace, ← ih]
    cases node with
    | link target => exact (hlink target rfl).elim
    | file => simp only [if_neg hcounts, if_neg hup, hnode]
    | directory => simp only [if_neg hcounts, if_neg hup, hnode]
  | case7 place name others hplace =>
    rw [List.cons_append, reach]
    cases hfind : tree.find? place.reverse with
    | none => rfl
    | some found =>
      cases found with
      | directory entries => exact absurd hfind (hplace entries)
      | file => rfl
      | link => rfl

/-- Where the operating system finds something through a number of links, there it is, and from
there on it follows a longer path. -/
theorem sight_append {node : Node} {links : Nat} {place : List Spelling}
    (h : sight tree links place names = .found node) : ∃ dest left,
      tree.find? dest = some node ∧ Node.Finds tree place.reverse names dest ∧
        ∀ rest, sight tree links place (names ++ rest) = sight tree left dest.reverse rest := by
  fun_induction sight tree links place names with
  | case1 => cases h
  | case2 links place names last hreach found hfound =>
    obtain rfl : found = node := by simpa using h
    have hend : (reach tree place names).Finds tree last.reverse := hreach ▸ .found hfound
    refine ⟨last.reverse, links, hfound, hend.finds, fun rest => ?_⟩
    rw [sight, reach_append, hreach, sight, List.reverse_reverse]
  | case3 => cases h
  | case4 => cases h
  | case5 place names inner target others hreach links start ih =>
    obtain ⟨dest, left, hnode, hfinds, honward⟩ := ih h
    have hstart : start.reverse = linkStart inner.reverse target := by
      simp only [start, linkStart]
      split <;> rfl
    rw [hstart] at hfinds
    have hend : (reach tree place names).Finds tree dest := hreach ▸ hfinds
    refine ⟨dest, left, hnode, hend.finds, fun rest => ?_⟩
    rw [sight, reach_append, hreach]
    dsimp only
    rw [← List.append_assoc]
    exact honward rest

/-- Where the operating system finds something through a number of links, there it is. -/
theorem finds_of_sight {node : Node} (links : Nat) {place : List Spelling}
    (h : sight tree links place names = .found node) :
    ∃ dest, Finds tree place.reverse names dest ∧ tree.find? dest = some node := by
  obtain ⟨dest, -, hnode, hfinds, -⟩ := sight_append h
  exact ⟨dest, hfinds, hnode⟩

/-- Following a path, the operating system gets to a place of the tree where there is something. -/
def Finds (disk : Disk) (p : Path) (dest : List Spelling) : Prop :=
  Node.Finds disk.tree [] (disk.currentPath.join p).parts dest

theorem finds_of_stat {node : Node} (h : disk.stat p = .found node) :
    ∃ dest, disk.Finds p dest ∧ disk.tree.find? dest = some node :=
  finds_of_sight maxLinks h

/-- A path from the root without `.`, `..` and empty components that no link is on the way to. A
second slash at the start counts as an empty component. -/
structure Normal (disk : Disk) (f : Path) : Prop where
  root : f.anchor = .root
  clear : Clear disk.tree f.parts
  nulFree : f.NulFree

theorem Normal.canonical (h : disk.Normal f) : disk.canonical f = .ok f := by
  obtain ⟨anchor, names⟩ := f
  obtain rfl : anchor = .root := h.root
  exact canonical_of_clear h.clear h.nulFree

end Disk

namespace Sample

open Node

theorem spellable_disk : disk.Spellable where
  current := Path.clean_nil
  targets place target h := by
    have hnone : disk.tree.linkTo? place = none := Node.linkTo?_of_linkCount_eq_zero rfl place
    simp [hnone] at h
  homes user home h := by simp [disk] at h

end Sample

end LintBridge
