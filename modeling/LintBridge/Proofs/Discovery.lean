import LintBridge.Path.Discovery
import LintBridge.Proofs.Grouping
import LintBridge.Proofs.NormalForm

/-!
# LintBridge.Proofs.Discovery

Finding scripts on a disk whose names can be spelled. Every script that is found has a canonical
path, with links and loops on the disk or not (`Disk.Listable.discover_isOk`).
-/

namespace LintBridge

theorem Path.Rooted.child {p : Path} (h : p.Rooted) {name : Spelling}
    (hname : .char '\x00' ∉ name) :
    (p.child name).Rooted :=
  ⟨h.absolute, Path.nulFree_iff.2 ((Path.nulFree_iff.1 h.nulFree).child hname)⟩

namespace Disk

variable {disk : Disk} {p : Path}

/-- No name on the disk holds the character U+0000. -/
structure Listable (disk : Disk) : Prop extends disk.Spellable where
  names : ∀ place entries, disk.tree.find? place = some (.directory entries) →
    ∀ e ∈ entries, .char '\x00' ∉ e.1

/-- Entries that can be listed are those of a directory somewhere on the disk. -/
theorem exists_place_of_list? {entries : List (Spelling × Node)}
    (hlist : disk.list? p = some entries) :
    ∃ place, disk.tree.find? place = some (.directory entries) := by
  unfold list? at hlist
  split at hlist
  next found hstat =>
    obtain ⟨place, -, hfind⟩ := finds_of_stat hstat
    obtain rfl := Option.some.inj hlist
    exact ⟨place, hfind⟩
  next => cases hlist

theorem Listable.entries (h : disk.Listable) {entries : List (Spelling × Node)}
    (hlist : disk.list? p = some entries) : ∀ e ∈ entries, .char '\x00' ∉ e.1 := by
  obtain ⟨place, hfind⟩ := exists_place_of_list? hlist
  exact h.names place entries hfind

theorem Listable.rooted_scriptsIn (h : disk.Listable) (hp : p.Rooted)
    {entries : List (Spelling × Node)} (hlist : disk.list? p = some entries) :
    ∀ f ∈ disk.scriptsIn p entries, f.Rooted := by
  intro f hf
  obtain ⟨name, hname, rfl⟩ := List.mem_map.1 hf
  have hmem := List.mem_mergeSort.1 (List.mem_of_mem_filter hname)
  obtain ⟨e, he, rfl⟩ := List.mem_map.1 (List.mem_of_mem_filter hmem)
  exact hp.child (h.entries hlist e he)

theorem Listable.rooted_subdirectories (h : disk.Listable) (search : Search) (hp : p.Rooted)
    {entries : List (Spelling × Node)} (hlist : disk.list? p = some entries) :
    ∀ f ∈ disk.subdirectories search p entries, f.Rooted := by
  intro f hf
  obtain ⟨name, hname, rfl⟩ := List.mem_map.1 hf
  obtain ⟨e, he, rfl⟩ := List.mem_map.1 (List.mem_mergeSort.1 hname)
  exact hp.child (h.entries hlist e (List.mem_of_mem_filter he))

/-- Scripts that are found can be resolved. -/
theorem Listable.rooted_scriptsBelow (h : disk.Listable) (search : Search) (levels : Nat)
    (hp : p.Rooted) : ∀ f ∈ disk.scriptsBelow search levels p, f.Rooted := by
  induction levels generalizing p with
  | zero => simp [scriptsBelow]
  | succ levels ih =>
    intro f hf
    unfold scriptsBelow at hf
    split at hf
    · cases hf
    next entries hlist =>
      rcases List.mem_append.1 hf with hf | hf
      · exact h.rooted_scriptsIn hp hlist f hf
      · obtain ⟨inner, hinner, hf⟩ := List.mem_flatMap.1 hf
        exact ih (h.rooted_subdirectories search hp hlist inner hinner) f hf

/-- Files that are looked up can be looked up again. -/
theorem forall₂_rooted (hdisk : disk.Spellable) {paths files : List Path}
    (hpaths : ∀ p ∈ paths, p.NulFree) (h : paths.mapM disk.canonical = .ok files) :
    List.Forall₂ (fun p file => disk.canonical p = .ok file ∧ file.Rooted) paths files :=
  ((List.forall₂_and_left _ _).2 ⟨hpaths, forall₂_of_mapM h⟩).imp fun _ _ hp =>
    ⟨hp.2, rooted_of_canonical hdisk hp.1 hp.2⟩

theorem rooted_of_forall₂ {paths files : List Path}
    (h : List.Forall₂ (fun p file => disk.canonical p = .ok file ∧ file.Rooted) paths files) :
    ∀ f ∈ files, f.Rooted := by
  have hflip : List.Forall₂ (fun f p => f.Rooted ∧ disk.canonical p = .ok f) files paths :=
    (h.imp fun _ _ hc => And.symm hc).flip
  exact ((List.forall₂_and_left _ _).1 hflip).1

/-- Files that can be looked up again and again. -/
theorem exists_canonical (hdisk : disk.Spellable) {paths : List Path}
    (hpaths : ∀ p ∈ paths, p.NulFree ∧ ∃ f, disk.canonical p = .ok f) :
    ∃ files, paths.mapM disk.canonical = .ok files ∧
      List.Forall₂ (fun p file => disk.canonical p = .ok file ∧ file.Rooted) paths files := by
  obtain ⟨files, hfiles⟩ := (mapM_isOk_iff disk.canonical paths).2 fun p hp => (hpaths p hp).2
  exact ⟨files, hfiles, forall₂_rooted hdisk (fun p hp => (hpaths p hp).1) hfiles⟩

theorem exists_canonical_of_rooted (hdisk : disk.Spellable) {paths : List Path}
    (hpaths : ∀ p ∈ paths, p.Rooted) : ∃ files, paths.mapM disk.canonical = .ok files ∧
      List.Forall₂ (fun p file => disk.canonical p = .ok file ∧ file.Rooted) paths files := by
  refine exists_canonical hdisk fun p hp => ⟨(hpaths p hp).nulFree, ?_⟩
  obtain ⟨f, hf, -⟩ := canonical_of_rooted hdisk (hpaths p hp)
  exact ⟨f, hf⟩

theorem Listable.discover_isOk (h : disk.Listable) (search : Search) (hp : p.Rooted) :
    ∃ files, disk.discover search p = .ok files ∧ ∀ f ∈ files, f.Rooted := by
  obtain ⟨files, hfiles, hall⟩ := exists_canonical_of_rooted h.toSpellable
    (h.rooted_scriptsBelow search disk.searchDepth hp)
  refine ⟨files, ?_, rooted_of_forall₂ hall⟩
  unfold discover
  rw [if_neg (Bool.eq_false_iff.1 hp.nulFree), hfiles]

end Disk

end LintBridge
