import LintBridge.Proofs.Walking

/-!
# LintBridge.Proofs.Relisting

The scripts below a directory without links. They depend on the files that there are and on nothing
else: two disks that differ only in the order in which directories list their entries
(`Disk.Relisted`) have the same scripts, in the same order.

Main result: `Disk.discover_linkless`.
-/

namespace LintBridge

/-! ### The order in which directories list their entries -/

namespace Node

/-- The same file or the same link, or directories that list the same names in some order. -/
inductive SameEntry : Node → Node → Prop where
  | file {bytes : List UInt8} {executable : Bool} :
      SameEntry (.file bytes executable) (.file bytes executable)
  | link {target : Spelling} : SameEntry (.link target) (.link target)
  | directory {entries entries' : List (Spelling × Node)}
      (hnames : (entries.map (·.1)).Perm (entries'.map (·.1))) :
      SameEntry (.directory entries) (.directory entries')

/-- At every place the two trees have the same entry, so that they differ in nothing but the order
in which their directories list their entries. -/
def Relisted (tree tree' : Node) : Prop :=
  ∀ place, Option.Rel SameEntry (tree.find? place) (tree'.find? place)

theorem SameEntry.symm {node node' : Node} (h : SameEntry node node') : SameEntry node' node := by
  cases h with
  | file => exact .file
  | link => exact .link
  | directory hnames => exact .directory hnames.symm

namespace Relisted

variable {tree tree' node : Node} {place names dest : List Spelling} {n : Nat}

theorem symm (h : Relisted tree tree') : Relisted tree' tree := by
  intro place
  have hsame := h place
  generalize tree.find? place = found at hsame ⊢
  generalize tree'.find? place = found' at hsame ⊢
  cases hsame with
  | some hsame => exact .some hsame.symm
  | none => exact .none

theorem exists_find? (h : Relisted tree tree') (hnode : tree.find? place = some node) :
    ∃ node', tree'.find? place = some node' ∧ SameEntry node node' := by
  have hsame := h place
  rw [hnode] at hsame
  generalize tree'.find? place = found at hsame ⊢
  cases hsame with
  | some hsame => exact ⟨_, rfl, hsame⟩

theorem linkTo? (h : Relisted tree tree') (place : List Spelling) :
    tree'.linkTo? place = tree.linkTo? place := by
  have hsame := h place
  unfold Node.linkTo?
  generalize tree.find? place = found at hsame ⊢
  generalize tree'.find? place = found' at hsame ⊢
  cases hsame with
  | some hsame => cases hsame <;> rfl
  | none => rfl

theorem inside {node' : Node} (h : Relisted tree tree') (hnode : tree.find? place = some node)
    (hnode' : tree'.find? place = some node') : Relisted node node' := by
  intro rest
  have hsame := h (place ++ rest)
  rwa [find?_append, find?_append, hnode, hnode'] at hsame

theorem leads (h : Relisted tree tree') (hl : Leads tree place names n dest) :
    Leads tree' place names n dest := by
  induction hl with
  | arrived => exact .arrived
  | stay hname _ ih => exact .stay hname ih
  | up _ ih => exact .up ih
  | enter hname hlink _ ih => exact .enter hname ((h.linkTo? _).trans hlink) ih
  | link hname hlink _ _ ih ih' => exact .link hname ((h.linkTo? _).trans hlink) ih ih'

theorem refl (tree : Node) : Relisted tree tree := by
  intro place
  cases tree.find? place with
  | none => exact .none
  | some node =>
    refine .some ?_
    cases node with
    | file => exact .file
    | link => exact .link
    | directory => exact .directory (.refl _)

/-- A directory may list its entries in any order. -/
theorem of_perm {entries entries' : List (Spelling × Node)} (hperm : entries.Perm entries')
    (hnodup : (entries.map (·.1)).Nodup) : Relisted (.directory entries) (.directory entries') := by
  have hlookup (name : Spelling) : entries'.lookup name = entries.lookup name := by
    cases hname : entries.lookup name with
    | none =>
      rw [List.lookup_eq_none_iff] at hname ⊢
      exact fun e he => hname e (hperm.mem_iff.2 he)
    | some inner =>
      obtain ⟨before, after, rfl, -⟩ := List.lookup_eq_some_iff.1 hname
      exact lookup_of_mem ((hperm.map _).nodup_iff.1 hnodup) (hperm.subset (by simp))
  intro place
  cases place with
  | nil => exact .some (.directory (hperm.map _))
  | cons name rest =>
    have hsame := refl (.directory entries) (name :: rest)
    rw [find?_cons] at hsame ⊢
    rw [find?_cons, hlookup]
    exact hsame

end Relisted

end Node

namespace Disk

open Node LintBridge.Path

variable {disk disk' : Disk} {search : Search} {p : Path} {tree tree' node node' : Node}
  {place names dest rel : List Spelling} {links : Nat}

/-- The operating system is led the same way. -/
theorem reach_relisted (h : Node.Relisted tree tree') (place names : List Spelling) :
    reach tree' place names = reach tree place names := by
  induction names generalizing place with
  | nil => rfl
  | cons name rest ih =>
    have hhere := h place.reverse
    have hnext := h (name :: place).reverse
    rw [reach, reach, ih, ih, ih]
    generalize tree.find? place.reverse = here at hhere ⊢
    generalize tree'.find? place.reverse = here' at hhere ⊢
    generalize tree.find? (name :: place).reverse = next at hnext ⊢
    generalize tree'.find? (name :: place).reverse = next' at hnext ⊢
    cases hhere with
    | none => rfl
    | some hhere =>
      cases hhere with
      | file => rfl
      | link => rfl
      | directory =>
        cases hnext with
        | none => rfl
        | some hnext => cases hnext <;> rfl

/-- What the operating system finds is the same. -/
theorem sight_relisted (h : Node.Relisted tree tree') (links : Nat) (place names : List Spelling)
    (hnode : sight tree links place names = .found node) :
    ∃ node', sight tree' links place names = .found node' := by
  fun_induction sight tree links place names with
  | case1 => cases hnode
  | case2 links place names last hreach found hfound =>
    obtain ⟨found', hfound', -⟩ := h.exists_find? hfound
    refine ⟨found', ?_⟩
    rw [sight, reach_relisted h, hreach]
    dsimp only
    rw [hfound']
  | case3 => cases hnode
  | case4 => cases hnode
  | case5 place names inner target rest hreach links start ih =>
    obtain ⟨node', hnode'⟩ := ih hnode
    refine ⟨node', ?_⟩
    rw [sight, reach_relisted h, hreach]
    exact hnode'

/-- The two disks differ in nothing but the order in which directories list their entries. -/
structure Relisted (disk disk' : Disk) : Prop where
  tree : Node.Relisted disk.tree disk'.tree
  current : disk'.current = disk.current
  homes : disk'.homes = disk.homes

theorem Relisted.wellNamed (h : disk.Relisted disk') (hdisk : disk.WellNamed) :
    disk'.WellNamed := by
  have hlisted {place : List Spelling} {entries' : List (Spelling × Node)}
      (hentries' : disk'.tree.find? place = some (.directory entries')) :
      ∃ entries, disk.tree.find? place = some (.directory entries) ∧
        (entries'.map (·.1)).Perm (entries.map (·.1)) := by
    obtain ⟨node, hnode, hsame⟩ := h.tree.symm.exists_find? hentries'
    cases hsame with
    | directory hnames => exact ⟨_, hnode, hnames⟩
  have hall {P : Spelling → Prop} (hP : ∀ place entries,
      disk.tree.find? place = some (.directory entries) → ∀ e ∈ entries, P e.1)
      (place : List Spelling) (entries' : List (Spelling × Node))
      (hentries' : disk'.tree.find? place = some (.directory entries')) :
      ∀ e ∈ entries', P e.1 := by
    intro e he
    obtain ⟨entries, hentries, hnames⟩ := hlisted hentries'
    obtain ⟨e', he', heq⟩ := List.mem_map.1 (hnames.subset (List.mem_map_of_mem he))
    exact heq ▸ hP place entries hentries e' he'
  have hspellable : disk'.Spellable := by
    refine ⟨h.current ▸ hdisk.current, fun place target hlink => ?_, h.homes ▸ hdisk.homes⟩
    rw [h.tree.linkTo?] at hlink
    exact hdisk.targets place target hlink
  refine ⟨⟨hspellable, hall (P := fun name => .char '\x00' ∉ name) hdisk.names⟩,
    fun place entries' hentries' => ?_, hall hdisk.isName⟩
  obtain ⟨entries, hentries, hnames⟩ := hlisted hentries'
  exact hnames.nodup_iff.2 (hdisk.distinct place entries hentries)

theorem Relisted.exists_stat (h : disk.Relisted disk') (habsolute : p.isAbsolute = true)
    (hnode : disk.stat p = .found node) : ∃ node', disk'.stat p = .found node' := by
  rw [stat, currentPath_join habsolute] at hnode ⊢
  exact sight_relisted h.tree maxLinks [] p.parts hnode

/-! ### Directories without links -/

/-- Below a directory without links there is a file of the given names that the search admits. -/
structure Search.Selects (search : Search) (node : Node) (rel : List Spelling) : Prop
    extends search.Admits rel where
  file : ∃ bytes executable, node.find? rel = some (.file bytes executable)

theorem Gets.hasScript_iff (h : disk.Gets p dest links) (hdisk : disk.WellNamed)
    (hnode : disk.tree.find? dest = some node) (hlinks : ∀ rel, node.linkTo? rel = none) :
    disk.HasScript search p node rel ↔ search.Selects node rel := by
  constructor
  · rintro ⟨hadmits, ⟨inner, hinner⟩, hnot⟩
    refine ⟨hadmits, ?_⟩
    cases inner with
    | file bytes executable => exact ⟨bytes, executable, hinner⟩
    | link target => simpa [linkTo?, hinner] using hlinks rel
    | directory entries =>
      obtain ⟨hbelow, hfind⟩ := h.below hdisk hnode hinner rfl
      simp [(hbelow.isDirectory_iff hfind).2 ⟨entries, rfl⟩] at hnot
  · rintro ⟨hadmits, bytes, executable, hfile⟩
    obtain ⟨hbelow, hfind⟩ := h.below hdisk hnode hfile rfl
    refine ⟨hadmits, ⟨_, hfile⟩, ?_⟩
    rw [Bool.eq_false_iff, Ne, hbelow.isDirectory_iff hfind]
    simp

/-- The search of a directory without links yields the canonical paths of its scripts. -/
theorem Gets.discover_selected (h : disk.Gets p dest links) (hdisk : disk.WellNamed)
    (hp : p.Rooted) (hnode : disk.tree.find? dest = some node)
    (hlinks : ∀ rel, node.linkTo? rel = none) (search : Search) :
    ∃ found : List (List Spelling), disk.discover search p =
        .ok (found.map (Path.below ⟨.root, dest⟩)) ∧
      found.Pairwise Precedes ∧ ∀ rel, rel ∈ found ↔ search.Selects node rel := by
  have hmem (rel : List Spelling) :
      rel ∈ disk.namesBelow search disk.searchDepth p ↔ search.Selects node rel := by
    rw [h.mem_namesBelow hdisk (fun _ => hlinks) hnode (height_le_searchDepth hnode),
      h.hasScript_iff hdisk hnode hlinks]
  refine ⟨_, discover_eq_ok hp fun rel hrel => ?_,
    pairwise_namesBelow hdisk search disk.searchDepth p, hmem⟩
  obtain ⟨bytes, executable, hfile⟩ := ((hmem rel).1 hrel).file
  exact h.canonical_below hdisk hp hnode hfile rfl

theorem Search.selects_relisted (h : Node.Relisted node node') :
    search.Selects node' rel ↔ search.Selects node rel := by
  have hfile {node node' : Node} (h : Node.Relisted node node')
      (hselects : search.Selects node rel) : search.Selects node' rel := by
    obtain ⟨hadmits, bytes, executable, hfind⟩ := hselects
    obtain ⟨other, hother, hsame⟩ := h.exists_find? hfind
    cases hsame
    exact ⟨hadmits, bytes, executable, hother⟩
  exact ⟨hfile h.symm, hfile h⟩

/-- The scripts below a directory without links, for any names that are excluded.

* They are the files that have the suffix of scripts and lie in no excluded directory, at any depth,
  and each is found once, by its canonical path.
* The scripts of each directory come before those of its subdirectories, and otherwise names decide.
* In which order directories list their entries does not matter. -/
theorem discover_linkless {disk : Disk} {root : Path} {node : Node} (hdisk : disk.WellNamed)
    (habsolute : root.isAbsolute = true) (hnode : disk.stat root = .found node)
    (hlinks : ∀ rel, node.linkTo? rel = none) (search : Search) :
    ∃ (base : Path) (found : List (List Spelling)), disk.canonical root = .ok base ∧
      disk.discover search root = .ok (found.map base.below) ∧
      (∀ rel, rel ∈ found ↔ search.Selects node rel) ∧
      (∀ rel ∈ found, disk.canonical (root.below rel) = .ok (base.below rel)) ∧
      found.Pairwise Precedes ∧ (found.map base.below).Nodup ∧
      ∀ disk', disk.Relisted disk' → disk'.discover search root = disk.discover search root := by
  obtain ⟨dest, links, hgets, hfind⟩ := exists_gets habsolute hnode
  have hroot := hdisk.rooted habsolute hnode
  obtain ⟨n, hleads⟩ := hgets.leads
  obtain ⟨found, hdiscover, hordered, hfound⟩ :=
    hgets.discover_selected hdisk hroot hfind hlinks search
  refine ⟨⟨.root, dest⟩, found, (canonical_of_leads hdisk.toSpellable hroot hleads).1, hdiscover,
    hfound, fun rel hrel => ?_, hordered, (Precedes.nodup hordered).map (below_injective _),
    fun disk' hrelisted => ?_⟩
  · obtain ⟨bytes, executable, hfile⟩ := ((hfound rel).1 hrel).file
    exact hgets.canonical_below hdisk hroot hfind hfile rfl
  obtain ⟨node', hnode'⟩ := hrelisted.exists_stat habsolute hnode
  have hdisk' := hrelisted.wellNamed hdisk
  obtain ⟨dest', links', hgets', hfind'⟩ := exists_gets habsolute hnode'
  -- Links are the same on both disks, so that the root directory is at the same place.
  obtain rfl : dest' = dest := by
    obtain ⟨n', hleads'⟩ := hgets'.leads
    exact (hleads'.unique (hrelisted.tree.leads hleads)).2
  have hinside : Node.Relisted node node' := hrelisted.tree.inside hfind hfind'
  obtain ⟨found', hdiscover', hordered', hfound'⟩ := hgets'.discover_selected hdisk'
    (hdisk'.rooted habsolute hnode') hfind' (fun rel => (hinside.linkTo? rel).trans (hlinks rel))
    search
  have hsame : found' = found := Precedes.eq_of_pairwise hordered' hordered fun rel => by
    rw [hfound, hfound', Search.selects_relisted hinside]
  rw [hdiscover, hdiscover', hsame]

end Disk

namespace Sample

open Node

/-- Scripts beside each other, in a subdirectory and in a directory that is excluded. -/
def strewn : List (Spelling × Node) :=
  [("b.nu", .file [] false),
    ("sub", .directory [("c.nu", .file [] false), ("notes", .file [] false)]),
    (".git", .directory [("d.nu", .file [] false)]), ("a.nu", .file [] false)]

theorem wellNamed_strewn : (diskOf strewn).WellNamed :=
  wellNamed_diskOf (by decide)

/-- Three scripts are found, in whatever order the root directory lists its entries. -/
theorem discover_linkless_strewn : (diskOf strewn).WellNamed ∧
    Path.root.isAbsolute = true ∧ (diskOf strewn).stat .root = .found (.directory strewn) ∧
      (∀ rel, (Node.directory strewn).linkTo? rel = none) ∧
      (diskOf strewn.reverse).discover {} .root =
        .ok [⟨.root, ["a.nu"]⟩, ⟨.root, ["b.nu"]⟩, ⟨.root, ["sub", "c.nu"]⟩] := by
  have hlinks : ∀ rel, (Node.directory strewn).linkTo? rel = none :=
    linkTo?_of_linkCount_eq_zero rfl
  have hfound : (diskOf strewn).discover {} .root =
      .ok [⟨.root, ["a.nu"]⟩, ⟨.root, ["b.nu"]⟩, ⟨.root, ["sub", "c.nu"]⟩] := by
    cbv
  have hreversed : (diskOf strewn).Relisted (diskOf strewn.reverse) :=
    ⟨.of_perm (List.reverse_perm strewn).symm (by decide), rfl, rfl⟩
  obtain ⟨base, found, -, -, -, -, -, -, hrelisted⟩ :=
    @Disk.discover_linkless _ .root _ wellNamed_strewn rfl rfl hlinks {}
  refine ⟨wellNamed_strewn, rfl, rfl, hlinks, ?_⟩
  rw [hrelisted _ hreversed, hfound]

end Sample

end LintBridge
