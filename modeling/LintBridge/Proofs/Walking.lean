import LintBridge.Proofs.Discovery
import LintBridge.Proofs.Loops

/-!
# LintBridge.Proofs.Walking

The search for scripts below a directory, whatever links there are. A script is told by its names as
seen from that directory (`Disk.namesBelow`), so that what is found can be told from the tree.

* `Disk.pairwise_namesBelow`: the scripts of a directory come first, by name, and then those of its
  subdirectories. There is only one such order (`Precedes.eq_of_pairwise`).
* `Disk.Gets.mem_namesBelow`: the search finds exactly the scripts that there are, at any depth.
* `Disk.Gets.canonical_below`: each script that is no link has its own canonical path.
-/

namespace LintBridge

theorem mapM_eq_ok {ε α β : Type} {f : α → Except ε β} {g : α → β} {l : List α}
    (h : ∀ a ∈ l, f a = .ok (g a)) : l.mapM f = .ok (l.map g) := by
  induction l with
  | nil => rfl
  | cons a rest ih =>
    rw [List.forall_mem_cons] at h
    rw [List.mapM_cons, h.1, ih h.2]
    rfl

/-! ### The order of names -/

namespace Letter

/-- No character has the number of a half. -/
theorem point_injective : Function.Injective Letter.point := by
  have hchar (c : Char) : c.toNat < 0xD800 ∨ 0xE000 ≤ c.toNat := c.valid.imp id And.left
  intro a b h
  cases a with
  | char c =>
    cases b with
    | char d => exact congrArg char (Char.toNat_inj.1 h)
    | unit b =>
      have := hchar c
      simp only [point] at h
      omega
  | unit a =>
    cases b with
    | char d =>
      have := hchar d
      simp only [point] at h
      omega
    | unit b =>
      simp only [point, Stray.half, Nat.add_left_cancel_iff, Nat.add_right_cancel_iff] at h
      exact congrArg unit (Fin.ext h)

instance : LE (Letter Stray) := ⟨fun a b => a.point ≤ b.point⟩

instance : Std.IsLinearOrder (Letter Stray) where
  le_refl _ := Nat.le_refl _
  le_trans _ _ _ := Nat.le_trans
  le_antisymm _ _ h h' := point_injective (Nat.le_antisymm h h')
  le_total _ _ := Nat.le_total _ _

instance : Std.LawfulOrderLT (Letter Stray) where
  lt_iff _ _ := Nat.lt_iff_le_and_not_ge

end Letter

/-! ### Places below a directory -/

/-- The path with names after it. -/
def Path.below (p : Path) (names : List Spelling) : Path :=
  { p with parts := p.parts ++ names }

@[simp] theorem Path.below_nil (p : Path) : p.below [] = p := by
  simp [below]

@[simp] theorem Path.below_cons (p : Path) (name : Spelling) (rest : List Spelling) :
    p.below (name :: rest) = (p.child name).below rest := by
  simp [below, child]

theorem Path.below_injective (p : Path) : Function.Injective p.below := fun names names' h => by
  simpa [below] using h

namespace Node

variable {tree node inner : Node} {entries : List (Spelling × Node)} {dest rel : List Spelling}
  {name : Spelling}

theorem height_pos (node : Node) : 0 < node.height := by
  cases node <;> simp [height]

theorem height_lookup_lt (h : entries.lookup name = some inner) :
    inner.height < (directory entries).height := by
  have hle : inner.height ≤ heightOf entries := by
    induction entries with
    | nil => simp at h
    | cons e rest ih =>
      obtain ⟨first, node⟩ := e
      rw [heightOf]
      rw [List.lookup_cons] at h
      split at h
      · rw [← Option.some.inj h]
        exact Nat.le_max_left _ _
      · exact (ih h).trans (Nat.le_max_right _ _)
  rw [height]
  exact Nat.lt_succ_of_le hle

theorem find?_cons (entries : List (Spelling × Node)) (name : Spelling) (rest : List Spelling) :
    (directory entries).find? (name :: rest) =
      (entries.lookup name).bind fun inner => inner.find? rest :=
  rfl

/-- Nothing is higher than what it lies in. -/
theorem height_find?_le (h : node.find? rel = some inner) : inner.height ≤ node.height := by
  induction rel generalizing node with
  | nil => rw [← Option.some.inj h]
  | cons name rest ih =>
    cases node with
    | directory entries =>
      rw [find?_cons] at h
      obtain ⟨mid, hmid, hrest⟩ := Option.bind_eq_some_iff.1 h
      exact (ih hrest).trans (height_lookup_lt hmid).le
    | file => cases h
    | link => cases h

/-- What is found below a directory lies below one of its entries. -/
theorem exists_entry (h : node.find? (name :: rel) = some inner) :
    ∃ entries mid, node = directory entries ∧ entries.lookup name = some mid ∧
      mid.find? rel = some inner := by
  cases node with
  | directory entries =>
    obtain ⟨mid, hmid, hrest⟩ := Option.bind_eq_some_iff.1 h
    exact ⟨entries, mid, rfl, hmid, hrest⟩
  | file => cases h
  | link => cases h

mutual

/-- A node and all that lies in it. -/
def nodes : Node → List Node
  | .file bytes executable => [.file bytes executable]
  | .link target => [.link target]
  | .directory entries => .directory entries :: nodesIn entries

/-- All that lies in the given entries. -/
def nodesIn : List (Spelling × Node) → List Node
  | [] => []
  | (_, node) :: rest => nodes node ++ nodesIn rest

end

theorem self_mem_nodes (node : Node) : node ∈ node.nodes := by
  cases node <;> simp [nodes]

theorem nodes_subset_nodesIn (h : entries.lookup name = some inner) :
    inner.nodes ⊆ nodesIn entries := by
  induction entries with
  | nil => simp at h
  | cons e rest ih =>
    obtain ⟨first, node⟩ := e
    rw [nodesIn]
    rw [List.lookup_cons] at h
    split at h
    · rw [← Option.some.inj h]
      exact List.subset_append_left _ _
    · exact List.Subset.trans (ih h) (List.subset_append_right _ _)

theorem mem_nodes (h : node.find? rel = some inner) : inner ∈ node.nodes := by
  induction rel generalizing node with
  | nil => exact Option.some.inj h ▸ self_mem_nodes node
  | cons name rest ih =>
    obtain ⟨entries, mid, rfl, hmid, hrest⟩ := exists_entry h
    rw [nodes]
    exact List.mem_cons_of_mem _ (nodes_subset_nodesIn hmid (ih hrest))

/-- Where no link is, something else is. -/
theorem isLink_eq_false (hinner : node.find? rel = some inner) (h : node.linkTo? rel = none) :
    Disk.isLink inner = false := by
  rw [linkTo?, hinner] at h
  cases inner with
  | link target => cases h
  | file => rfl
  | directory => rfl

theorem find?_child (hdir : tree.find? dest = some (directory entries)) (name : Spelling) :
    tree.find? (dest ++ [name]) = entries.lookup name := by
  rw [find?_append, hdir]
  cases h : entries.lookup name <;> simp [find?, h]

end Node

/-! ### The order of scripts -/

/-- Which of two scripts comes first, given by their names as seen from a directory: the scripts of
a directory come before those of its subdirectories, and otherwise names decide. -/
inductive Precedes : List Spelling → List Spelling → Prop where
  | scripts {a b : Spelling} (h : a < b) : Precedes [a] [b]
  | shallow {a name : Spelling} {rest : List Spelling} (hrest : rest ≠ []) :
      Precedes [a] (name :: rest)
  | directories {a b : Spelling} {x y : List Spelling} (h : a < b) (hx : x ≠ []) (hy : y ≠ []) :
      Precedes (a :: x) (b :: y)
  | inside {name : Spelling} {x y : List Spelling} (h : Precedes x y) :
      Precedes (name :: x) (name :: y)

namespace Precedes

variable {x y : List Spelling} {l l' : List (List Spelling)}

theorem ne_nil (h : Precedes x y) : x ≠ [] ∧ y ≠ [] := by
  cases h <;> simp

theorem asymm (h : Precedes x y) : ¬ Precedes y x := by
  induction h with
  | scripts h =>
    rintro (h' | hrest | ⟨-, hx, -⟩ | h')
    · exact List.lt_asymm h h'
    · exact hrest rfl
    · exact hx rfl
    · exact h'.ne_nil.1 rfl
  | shallow hrest =>
    rintro (- | - | ⟨-, -, hy⟩ | h')
    · exact hrest rfl
    · exact hrest rfl
    · exact hy rfl
    · exact h'.ne_nil.2 rfl
  | directories h hx hy =>
    rintro (- | - | ⟨h', -, -⟩ | h')
    · exact hx rfl
    · exact hy rfl
    · exact List.lt_asymm h h'
    · exact List.lt_irrefl _ h
  | inside h ih =>
    rintro (h' | - | ⟨h', -, -⟩ | h')
    · exact List.lt_irrefl _ h'
    · exact h.ne_nil.2 rfl
    · exact List.lt_irrefl _ h'
    · exact ih h'

/-- No script comes twice. -/
theorem nodup (h : l.Pairwise Precedes) : l.Nodup :=
  h.imp fun hxy heq => (heq ▸ hxy).asymm (heq ▸ hxy)

/-- Scripts have only one order. -/
theorem eq_of_pairwise (h : l.Pairwise Precedes) (h' : l'.Pairwise Precedes)
    (hmem : ∀ x, x ∈ l ↔ x ∈ l') : l = l' := by
  have hperm : l.Perm l' := (List.perm_ext_iff_of_nodup (nodup h) (nodup h')).2 hmem
  exact hperm.eq_of_pairwise (fun _ _ _ _ hxy hyx => absurd hyx hxy.asymm) h h'

end Precedes

namespace Disk

open Node LintBridge.Path

variable {disk : Disk} {search : Search} {p root : Path} {levels links : Nat}
  {entries : List (Spelling × Node)} {dest rel names : List Spelling} {node inner : Node}
  {name : Spelling}

theorem mem_sorted : name ∈ sorted names ↔ name ∈ names :=
  List.mem_mergeSort

theorem sorted_nodup (h : names.Nodup) : (sorted names).Nodup :=
  (List.mergeSort_perm names _).nodup_iff.2 h

/-- Different names are sorted in ascending order. -/
theorem pairwise_sorted (h : names.Nodup) : (sorted names).Pairwise (· < ·) := by
  have hle : (sorted names).Pairwise fun a b => (!decide (b < a)) = true := by
    refine List.pairwise_mergeSort (fun a b c hab hbc => ?_) (fun a b => ?_) names
    · simp only [Bool.not_eq_true', decide_eq_false_iff_not, List.not_lt] at hab hbc ⊢
      exact List.le_trans hab hbc
    · simp only [Bool.or_eq_true, Bool.not_eq_true', decide_eq_false_iff_not, List.not_lt]
      exact List.le_total a b
  refine (hle.and (sorted_nodup h)).imp fun ⟨hab, hne⟩ => ?_
  have hle : _ ≤ _ := List.not_lt.1 (by simpa using hab)
  exact List.not_le.1 fun hba => hne (List.le_antisymm hle hba)

/-! ### The search, by names -/

/-- The names of the scripts in the directory `top`. -/
def scriptNames (disk : Disk) (top : Path) (entries : List (Spelling × Node)) : List Spelling :=
  (sorted ((entries.map (·.1)).filter fun name => !disk.isDirectory (top.child name))).filter
    (scriptSuffix.isSuffixOf ·)

/-- The names of the subdirectories of the directory `top` that are searched. -/
def subdirectoryNames (disk : Disk) (search : Search) (top : Path)
    (entries : List (Spelling × Node)) : List Spelling :=
  sorted ((entries.filter fun (name, node) =>
    disk.isDirectory (top.child name) && !search.excluded.contains name &&
      (search.followLinks || !isLink node)).map (·.1))

/-- The scripts at most `levels` levels below the directory `top`, by their names as seen from
there. -/
def namesBelow (disk : Disk) (search : Search) : Nat → Path → List (List Spelling)
  | 0, _ => []
  | levels + 1, top =>
    match disk.list? top with
    | none => []
    | some entries =>
      (disk.scriptNames top entries).map ([·]) ++
        (disk.subdirectoryNames search top entries).flatMap fun name =>
          (disk.namesBelow search levels (top.child name)).map (name :: ·)

theorem scriptsBelow_eq (disk : Disk) (search : Search) (levels : Nat) (p : Path) :
    disk.scriptsBelow search levels p = (disk.namesBelow search levels p).map p.below := by
  induction levels generalizing p with
  | zero => rfl
  | succ levels ih =>
    rw [scriptsBelow, namesBelow]
    cases disk.list? p with
    | none => rfl
    | some entries =>
      have hsub : (disk.subdirectories search p entries).flatMap (disk.scriptsBelow search levels) =
          ((disk.subdirectoryNames search p entries).flatMap fun name =>
            (disk.namesBelow search levels (p.child name)).map (name :: ·)).map p.below := by
        rw [subdirectories, List.flatMap_map, List.map_flatMap]
        refine List.flatMap_congr fun name _ => ?_
        simp [ih, Function.comp_def]
      dsimp only
      rw [hsub, List.map_append]
      simp [scriptsIn, scriptNames, Function.comp_def]

theorem nil_not_mem_namesBelow : [] ∉ disk.namesBelow search levels p := by
  cases levels with
  | zero => simp [namesBelow]
  | succ levels =>
    rw [namesBelow]
    split <;> simp

/-- A disk as operating systems keep them: in each directory a name stands for one entry. -/
structure WellNamed (disk : Disk) : Prop extends disk.Listable where
  distinct : ∀ place entries, disk.tree.find? place = some (.directory entries) →
    (entries.map (·.1)).Nodup
  isName : ∀ place entries, disk.tree.find? place = some (.directory entries) →
    ∀ e ∈ entries, IsName e.1

/-- Names are in order at a node. -/
def IsWellNamed : Node → Prop
  | .file .. => True
  | .link target => .char '\x00' ∉ target
  | .directory entries => (entries.map (·.1)).Nodup ∧
      ∀ e ∈ entries, counts e.1 = true ∧ e.1 ≠ ".." ∧ .char '\x00' ∉ e.1

instance : DecidablePred IsWellNamed
  | .file .. => inferInstanceAs (Decidable True)
  | .link _ => inferInstanceAs (Decidable (_ ∉ _))
  | .directory _ => inferInstanceAs (Decidable (_ ∧ _))

/-- Whether names are in order can be computed. -/
theorem WellNamed.of_nodes (hcurrent : Path.Clean disk.current)
    (hhomes : ∀ user home, disk.homes.lookup user = some home → .char '\x00' ∉ home)
    (h : ∀ node ∈ disk.tree.nodes, IsWellNamed node) : disk.WellNamed := by
  have hdir {place : List Spelling} {entries : List (Spelling × Node)}
      (hplace : disk.tree.find? place = some (.directory entries)) :
      (entries.map (·.1)).Nodup ∧
        ∀ e ∈ entries, counts e.1 = true ∧ e.1 ≠ ".." ∧ .char '\x00' ∉ e.1 :=
    h _ (mem_nodes hplace)
  have htargets (place : List Spelling) (target : Spelling)
      (hlink : disk.tree.linkTo? place = some target) : .char '\x00' ∉ target := by
    unfold linkTo? at hlink
    split at hlink
    next hplace => exact Option.some.inj hlink ▸ h _ (mem_nodes hplace)
    next => cases hlink
  exact ⟨⟨⟨hcurrent, htargets, hhomes⟩, fun _ _ hplace e he => ((hdir hplace).2 e he).2.2⟩,
    fun _ _ hplace => (hdir hplace).1,
    fun _ _ hplace e he => ⟨((hdir hplace).2 e he).1, ((hdir hplace).2 e he).2.1⟩⟩

/-- Entries of a directory have different names, however it is spelled. -/
theorem WellNamed.nodup (h : disk.WellNamed) (hlist : disk.list? p = some entries) :
    (entries.map (·.1)).Nodup := by
  obtain ⟨place, hfind⟩ := exists_place_of_list? hlist
  exact h.distinct place entries hfind

/-- Scripts are found in the order that `Precedes` tells. -/
theorem pairwise_namesBelow (hdisk : disk.WellNamed) (search : Search) (levels : Nat) (p : Path) :
    (disk.namesBelow search levels p).Pairwise Precedes := by
  induction levels generalizing p with
  | zero => simp [namesBelow]
  | succ levels ih =>
    rw [namesBelow]
    split
    · exact .nil
    next entries hlist =>
    have hnodup := hdisk.nodup hlist
    have hscripts : ((disk.scriptNames p entries).map ([·])).Pairwise Precedes :=
      List.pairwise_map.2 (((pairwise_sorted (hnodup.filter _)).filter _).imp .scripts)
    have hnames : (disk.subdirectoryNames search p entries).Pairwise (· < ·) :=
      pairwise_sorted (hnodup.sublist (List.filter_sublist.map _))
    -- Scripts of one subdirectory, then of two, then a script here and one deeper down.
    refine List.pairwise_append.2 ⟨hscripts, List.pairwise_flatMap.2 ⟨fun name _ => ?_, ?_⟩, ?_⟩
    · exact List.pairwise_map.2 ((ih (p.child name)).imp .inside)
    · refine hnames.imp fun hlt x hx y hy => ?_
      obtain ⟨others, hothers, rfl⟩ := List.mem_map.1 hx
      obtain ⟨rest, hrest, rfl⟩ := List.mem_map.1 hy
      exact .directories hlt (ne_of_mem_of_not_mem hothers nil_not_mem_namesBelow)
        (ne_of_mem_of_not_mem hrest nil_not_mem_namesBelow)
    · intro x hx y hy
      obtain ⟨a, -, rfl⟩ := List.mem_map.1 hx
      obtain ⟨name, -, hname⟩ := List.mem_flatMap.1 hy
      obtain ⟨rest, hrest, rfl⟩ := List.mem_map.1 hname
      exact .shallow (ne_of_mem_of_not_mem hrest nil_not_mem_namesBelow)

/-! ### What the operating system makes of longer paths -/

/-- Following the path `p` from the root, the operating system gets to the place `dest`, and from
there on it follows at most `links` links. -/
structure Gets (disk : Disk) (p : Path) (dest : List Spelling) (links : Nat) : Prop where
  absolute : p.isAbsolute = true
  leads : ∃ n, Leads disk.tree [] p.parts n dest
  onward : ∀ names, disk.stat (p.below names) = sight disk.tree links dest.reverse names

theorem exists_gets (habsolute : p.isAbsolute = true) (h : disk.stat p = .found node) :
    ∃ dest links, disk.Gets p dest links ∧ disk.tree.find? dest = some node := by
  rw [stat, currentPath_join habsolute] at h
  obtain ⟨dest, left, hnode, hfinds, honward⟩ := sight_append h
  refine ⟨dest, left, ⟨habsolute, hfinds.leads, fun names => ?_⟩, hnode⟩
  have hbelow : (p.below names).isAbsolute = true := habsolute
  rw [stat, currentPath_join hbelow]
  exact honward names

theorem Gets.stat (h : disk.Gets p dest links) (hnode : disk.tree.find? dest = some node) :
    disk.stat p = .found node := by
  have hhere := h.onward []
  rw [below_nil, sight, reach] at hhere
  dsimp only at hhere
  rwa [List.reverse_reverse, hnode] at hhere

/-- From a directory the operating system gets into each entry that is no link. -/
theorem reach_child {tree : Node} {rest : List Spelling}
    (hdir : tree.find? dest = some (.directory entries)) (hname : IsName name)
    (hinner : entries.lookup name = some inner) (hlink : isLink inner = false) :
    reach tree dest.reverse (name :: rest) = reach tree (dest ++ [name]).reverse rest := by
  have hstay : ¬ (name = [] ∨ name = ".") := by
    rw [← counts_eq_false_iff, hname.1]
    exact Bool.false_ne_true.symm
  rw [reach, List.reverse_reverse, hdir]
  dsimp only
  rw [if_neg hstay, if_neg hname.2, List.reverse_cons, List.reverse_reverse, find?_child hdir,
    hinner, List.reverse_append]
  cases inner with
  | link target => cases hlink
  | file => rfl
  | directory => rfl

theorem Gets.child (h : disk.Gets p dest links)
    (hdir : disk.tree.find? dest = some (.directory entries)) (hname : IsName name)
    (hinner : entries.lookup name = some inner) (hlink : isLink inner = false) :
    disk.Gets (p.child name) (dest ++ [name]) links := by
  obtain ⟨n, hleads⟩ := h.leads
  have hnone : disk.tree.linkTo? (dest ++ [name]) = none := by
    rw [linkTo?, find?_child hdir, hinner]
    cases inner with
    | link target => cases hlink
    | file => rfl
    | directory => rfl
  refine ⟨h.absolute, hleads.append (.enter hname hnone .arrived), fun names => ?_⟩
  rw [← below_cons, h.onward, sight, reach_child hdir hname hinner hlink, sight]

theorem Gets.list?_eq_some (h : disk.Gets p dest links)
    (hdir : disk.tree.find? dest = some (.directory entries)) : disk.list? p = some entries := by
  rw [list?, h.stat hdir]

theorem Gets.isDirectory_iff (h : disk.Gets p dest links)
    (hnode : disk.tree.find? dest = some node) :
    disk.isDirectory p = true ↔ ∃ entries, node = .directory entries := by
  rw [isDirectory, list?, h.stat hnode]
  cases node <;> simp

theorem Gets.entry (h : disk.Gets p dest links) (hdisk : disk.WellNamed)
    (hdir : disk.tree.find? dest = some (.directory entries))
    (hinner : entries.lookup name = some inner) (hlink : isLink inner = false) :
    disk.Gets (p.child name) (dest ++ [name]) links ∧
      disk.tree.find? (dest ++ [name]) = some inner := by
  obtain ⟨before, after, rfl, -⟩ := List.lookup_eq_some_iff.1 hinner
  have hname : IsName name := hdisk.isName dest _ hdir (name, inner) (by simp)
  exact ⟨h.child hdir hname hinner hlink, by rw [find?_child hdir, hinner]⟩

/-! ### Which scripts are found -/

/-- A name that is looked for. The search does not go into excluded directories. -/
structure Search.Admits (search : Search) (rel : List Spelling) : Prop where
  script : ∃ name, rel.getLast? = some name ∧ scriptSuffix.isSuffixOf name = true
  searched : ∀ name ∈ rel.dropLast, name ∉ search.excluded

theorem Search.Admits.ne_nil (h : search.Admits rel) : rel ≠ [] := by
  rintro rfl
  obtain ⟨name, hname, -⟩ := h.script
  cases hname

theorem Search.admits_singleton : search.Admits [name] ↔ scriptSuffix.isSuffixOf name = true :=
  ⟨fun h => by simpa using h.script, fun h => ⟨⟨name, rfl, h⟩, by simp⟩⟩

theorem Search.admits_cons (hrel : rel ≠ []) :
    search.Admits (name :: rel) ↔ name ∉ search.excluded ∧ search.Admits rel := by
  obtain ⟨next, rest, rfl⟩ := List.exists_cons_of_ne_nil hrel
  constructor
  · rintro ⟨hscript, hsearched⟩
    rw [List.getLast?_cons_cons] at hscript
    rw [List.dropLast_cons_cons, List.forall_mem_cons] at hsearched
    exact ⟨hsearched.1, hscript, hsearched.2⟩
  · rintro ⟨hname, hscript, hsearched⟩
    refine ⟨by rwa [List.getLast?_cons_cons], ?_⟩
    rw [List.dropLast_cons_cons, List.forall_mem_cons]
    exact ⟨hname, hsearched⟩

/-- Below a directory there is a script of the given names: something that is no directory, and that
the search admits. -/
structure HasScript (disk : Disk) (search : Search) (p : Path) (node : Node) (rel : List Spelling) :
    Prop extends search.Admits rel where
  entry : ∃ inner, node.find? rel = some inner
  notDirectory : disk.isDirectory (p.below rel) = false

/-- Directories behind links are not searched. -/
def Search.StaysIn (search : Search) (node : Node) : Prop :=
  search.followLinks = true → ∀ rel, node.linkTo? rel = none

theorem Search.StaysIn.entry (h : search.StaysIn (.directory entries))
    (hinner : entries.lookup name = some inner) : search.StaysIn inner := by
  intro hfollow rel
  have hnone := h hfollow (name :: rel)
  rwa [linkTo?_directory, hinner] at hnone

theorem mem_scriptNames : name ∈ disk.scriptNames p entries ↔
    (∃ inner, entries.lookup name = some inner) ∧ disk.isDirectory (p.child name) = false ∧
      scriptSuffix.isSuffixOf name = true := by
  have hentry : name ∈ entries.map (·.1) ↔ ∃ inner, entries.lookup name = some inner := by
    rw [← Option.isSome_iff_exists, List.lookup_isSome_iff, List.mem_map]
    exact exists_congr fun e => and_congr_right fun _ => by rw [beq_iff_eq, eq_comm]
  simp only [scriptNames, List.mem_filter, mem_sorted, hentry, Bool.not_eq_true', and_assoc]

/-- The directories that the search goes into are those that are not excluded. -/
theorem Gets.mem_subdirectoryNames (h : disk.Gets p dest links) (hdisk : disk.WellNamed)
    (hdir : disk.tree.find? dest = some (.directory entries))
    (hstays : search.StaysIn (.directory entries)) :
    name ∈ disk.subdirectoryNames search p entries ↔
      name ∉ search.excluded ∧ ∃ es, entries.lookup name = some (.directory es) := by
  have hmem : name ∈ disk.subdirectoryNames search p entries ↔
      ∃ inner, (name, inner) ∈ entries ∧ disk.isDirectory (p.child name) = true ∧
        name ∉ search.excluded ∧ (search.followLinks = true ∨ isLink inner = false) := by
    simp [subdirectoryNames, mem_sorted, and_assoc]
  rw [hmem]
  constructor
  · rintro ⟨inner, hentry, hisDirectory, hexcluded, hfollow⟩
    have hinner := lookup_of_mem (hdisk.distinct dest entries hdir) hentry
    have hlink : isLink inner = false := by
      rcases hfollow with hfollow | hlink
      · exact isLink_eq_false rfl (hstays.entry hinner hfollow [])
      · exact hlink
    obtain ⟨hchild, hfind⟩ := h.entry hdisk hdir hinner hlink
    obtain ⟨es, rfl⟩ := (hchild.isDirectory_iff hfind).1 hisDirectory
    exact ⟨hexcluded, es, hinner⟩
  · rintro ⟨hexcluded, es, hinner⟩
    obtain ⟨hchild, hfind⟩ := h.entry hdisk hdir hinner rfl
    obtain ⟨before, after, rfl, -⟩ := List.lookup_eq_some_iff.1 hinner
    exact ⟨.directory es, by simp, (hchild.isDirectory_iff hfind).2 ⟨es, rfl⟩, hexcluded, .inr rfl⟩

/-- There is a script in a directory. -/
theorem hasScript_singleton : disk.HasScript search p (.directory entries) [name] ↔
    (∃ inner, entries.lookup name = some inner) ∧ disk.isDirectory (p.child name) = false ∧
      scriptSuffix.isSuffixOf name = true := by
  have hentry : (Node.directory entries).find? [name] = entries.lookup name := by
    rw [find?_cons]
    cases entries.lookup name <;> rfl
  constructor
  · rintro ⟨hadmits, hinner, hnot⟩
    exact ⟨hentry ▸ hinner, by rwa [below_cons, below_nil] at hnot,
      Search.admits_singleton.1 hadmits⟩
  · rintro ⟨hinner, hnot, hname⟩
    exact ⟨Search.admits_singleton.2 hname, hentry ▸ hinner, by rwa [below_cons, below_nil]⟩

/-- There is a script deeper down. -/
theorem hasScript_cons (hrel : rel ≠ []) :
    disk.HasScript search p (.directory entries) (name :: rel) ↔
      name ∉ search.excluded ∧ ∃ es, entries.lookup name = some (.directory es) ∧
        disk.HasScript search (p.child name) (.directory es) rel := by
  constructor
  · rintro ⟨hadmits, ⟨inner, hentry⟩, hnot⟩
    obtain ⟨hname, hadmits⟩ := (Search.admits_cons hrel).1 hadmits
    obtain ⟨mid, hmid, hentry⟩ := Option.bind_eq_some_iff.1 hentry
    obtain ⟨next, rest, rfl⟩ := List.exists_cons_of_ne_nil hrel
    obtain ⟨es, -, rfl, -, -⟩ := exists_entry hentry
    exact ⟨hname, es, hmid, hadmits, ⟨inner, hentry⟩, by rwa [below_cons] at hnot⟩
  · rintro ⟨hname, es, hmid, hadmits, ⟨inner, hentry⟩, hnot⟩
    refine ⟨(Search.admits_cons hrel).2 ⟨hname, hadmits⟩, ⟨inner, ?_⟩, by rwa [below_cons]⟩
    rw [find?_cons, hmid]
    exact hentry

/-- The search finds exactly the scripts that there are. -/
theorem Gets.mem_namesBelow (hdisk : disk.WellNamed) (hstays : search.StaysIn node)
    (h : disk.Gets p dest links) (hnode : disk.tree.find? dest = some node)
    (hlevels : node.height ≤ levels) :
    rel ∈ disk.namesBelow search levels p ↔ disk.HasScript search p node rel := by
  -- Each level of the search goes down one name of `rel`, and `node` gets lower with it.
  induction levels generalizing p dest node rel with
  | zero => exact absurd hlevels (Nat.not_le.2 node.height_pos)
  | succ levels ih =>
    cases rel with
    | nil => exact iff_of_false nil_not_mem_namesBelow fun hscript => hscript.ne_nil rfl
    | cons name rest =>
    by_cases hdir : ∃ entries, node = .directory entries
    case neg =>
      have hlist : disk.list? p = none := by
        simpa [isDirectory] using (h.isDirectory_iff hnode).not.2 hdir
      refine iff_of_false (by simp [namesBelow, hlist]) fun hscript => hdir ?_
      obtain ⟨inner, hinner⟩ := hscript.entry
      obtain ⟨entries, -, rfl, -⟩ := exists_entry hinner
      exact ⟨entries, rfl⟩
    obtain ⟨entries, rfl⟩ := hdir
    have hmem : name :: rest ∈ disk.namesBelow search (levels + 1) p ↔
        (rest = [] ∧ name ∈ disk.scriptNames p entries) ∨
          name ∈ disk.subdirectoryNames search p entries ∧
            rest ∈ disk.namesBelow search levels (p.child name) := by
      rw [namesBelow, h.list?_eq_some hnode]
      simp [eq_comm, and_comm]
    rw [hmem]
    by_cases hrest : rest = []
    · subst hrest
      rw [mem_scriptNames, hasScript_singleton]
      simp [nil_not_mem_namesBelow]
    · rw [h.mem_subdirectoryNames hdisk hnode hstays, hasScript_cons hrest, and_assoc,
        exists_and_right.symm]
      refine (or_iff_right fun hnil => hrest hnil.1).trans
        (and_congr_right fun _ => exists_congr fun es => and_congr_right fun hinner => ?_)
      obtain ⟨hchild, hfind⟩ := h.entry hdisk hnode hinner rfl
      exact ih (hstays.entry hinner) hchild hfind
        (Nat.le_of_lt_succ ((height_lookup_lt hinner).trans_le hlevels))

theorem height_le_searchDepth (hnode : disk.tree.find? dest = some node) :
    node.height ≤ disk.searchDepth := by
  calc
    node.height ≤ disk.tree.height + 1 := (height_find?_le hnode).trans (Nat.le_succ _)
    _ ≤ disk.searchDepth := Nat.le_mul_of_pos_left _ (Nat.succ_pos _)

/-! ### Where the scripts are -/

/-- The operating system gets to everything below a directory that is no link. -/
theorem Gets.below (h : disk.Gets p dest links) (hdisk : disk.WellNamed)
    (hnode : disk.tree.find? dest = some node) (hinner : node.find? rel = some inner)
    (hlink : isLink inner = false) :
    disk.Gets (p.below rel) (dest ++ rel) links ∧ disk.tree.find? (dest ++ rel) = some inner := by
  induction rel generalizing p dest node with
  | nil =>
    rw [below_nil, List.append_nil, hnode]
    exact ⟨h, hinner⟩
  | cons name rest ih =>
    obtain ⟨entries, mid, rfl, hmid, hrest⟩ := exists_entry hinner
    -- What has an entry is a directory, so that `hlink` is needed for the last name only.
    have hpassed : isLink mid = false := by
      cases rest with
      | nil =>
        obtain rfl := Option.some.inj hrest
        exact hlink
      | cons =>
        obtain ⟨inside, -, rfl, -, -⟩ := exists_entry hrest
        rfl
    obtain ⟨hentry, hfind⟩ := h.entry hdisk hnode hmid hpassed
    rw [below_cons, List.append_cons]
    exact ih hentry hfind hrest

theorem WellNamed.clean (hdisk : disk.WellNamed) (hnode : disk.tree.find? dest = some node)
    (hinner : node.find? rel = some inner) : Path.Clean rel := by
  induction rel generalizing dest node with
  | nil => exact clean_nil
  | cons name rest ih =>
    obtain ⟨entries, mid, rfl, hmid, hrest⟩ := exists_entry hinner
    have hfind : disk.tree.find? (dest ++ [name]) = some mid := by rw [find?_child hnode, hmid]
    obtain ⟨before, after, rfl, -⟩ := List.lookup_eq_some_iff.1 hmid
    have hname := hdisk.names dest _ hnode (name, mid) (by simp)
    exact List.forall_mem_cons.2 ⟨hname, ih hfind hrest⟩

/-- Paths to something on the disk hold no character U+0000. -/
theorem Listable.clean_of_finds (hdisk : disk.Listable) {place : List Spelling}
    (h : Node.Finds disk.tree place names dest) : Path.Clean names := by
  have hentry {place : List Spelling} {name : Spelling} (hdir : disk.tree.IsDirectory place)
      (hsome : disk.tree.find? (place ++ [name]) ≠ none) : .char '\x00' ∉ name := by
    obtain ⟨entries, hentries⟩ := hdir
    rw [find?_child hentries] at hsome
    obtain ⟨inner, hinner⟩ := Option.ne_none_iff_exists'.1 hsome
    obtain ⟨before, after, rfl, -⟩ := List.lookup_eq_some_iff.1 hinner
    exact hdisk.names place _ hentries (name, inner) (by simp)
  induction h with
  | found => exact clean_nil
  | stay _ hname _ ih =>
    refine List.forall_mem_cons.2 ⟨?_, ih⟩
    rcases (counts_eq_false_iff _).1 hname with rfl | rfl <;> decide
  | up _ _ ih => exact List.forall_mem_cons.2 ⟨by decide, ih⟩
  | enter hdir _ _ next ih =>
    refine List.forall_mem_cons.2 ⟨hentry hdir ?_, ih⟩
    cases next with
    | found hnode => simp [hnode]
    | stay hdir | up hdir | enter hdir | link hdir =>
      obtain ⟨entries, hentries⟩ := hdir
      simp [hentries]
  | link hdir _ hlink _ ih =>
    refine List.forall_mem_cons.2
      ⟨hentry hdir fun hnone => ?_, ih.of_subset (List.subset_append_right _ _)⟩
    simp [linkTo?, hnone] at hlink

/-- A path that something is at can be resolved. -/
theorem Listable.rooted (hdisk : disk.Listable) (habsolute : p.isAbsolute = true)
    (h : disk.stat p = .found node) : p.Rooted := by
  obtain ⟨dest, hfinds, -⟩ := finds_of_stat h
  rw [Finds, currentPath_join habsolute] at hfinds
  exact ⟨habsolute, nulFree_iff.2 (hdisk.clean_of_finds hfinds)⟩

/-- The canonical path of something below a directory that is no link. -/
theorem Gets.canonical_below (h : disk.Gets p dest links) (hdisk : disk.WellNamed)
    (hp : p.Rooted) (hnode : disk.tree.find? dest = some node)
    (hinner : node.find? rel = some inner) (hlink : isLink inner = false) :
    disk.canonical (p.below rel) = .ok (Path.below ⟨.root, dest⟩ rel) := by
  obtain ⟨n, hleads⟩ := (h.below hdisk hnode hinner hlink).1.leads
  have hclean := (nulFree_iff.1 hp.nulFree).append (hdisk.clean hnode hinner)
  have hrooted : (p.below rel).Rooted := ⟨hp.absolute, nulFree_iff.2 hclean⟩
  exact (canonical_of_leads hdisk.toSpellable hrooted hleads).1

theorem discover_eq (hp : p.Rooted) : disk.discover search p =
    ((disk.namesBelow search disk.searchDepth p).map p.below).mapM disk.canonical := by
  rw [discover, if_neg (Bool.eq_false_iff.1 hp.nulFree), scriptsBelow_eq]

/-- Every script that is found goes into the list by its canonical path. -/
theorem discover_eq_ok {place : List Spelling → Path} (hp : p.Rooted)
    (hplace : ∀ rel ∈ disk.namesBelow search disk.searchDepth p,
      disk.canonical (p.below rel) = .ok (place rel)) :
    disk.discover search p = .ok ((disk.namesBelow search disk.searchDepth p).map place) := by
  rw [discover_eq hp, List.mapM_map]
  exact mapM_eq_ok hplace

end Disk

namespace Sample

/-- A disk with the given entries in its root directory. -/
def diskOf (entries : List (Spelling × Node)) : Disk :=
  { tree := .directory entries, current := [], homes := [] }

theorem wellNamed_diskOf {entries : List (Spelling × Node)}
    (h : ∀ node ∈ (Node.directory entries).nodes, Disk.IsWellNamed node) :
    (diskOf entries).WellNamed :=
  .of_nodes Path.clean_nil (by simp [diskOf]) h

end Sample

end LintBridge
