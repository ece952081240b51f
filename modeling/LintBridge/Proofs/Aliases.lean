import LintBridge.Proofs.Walking
import LintBridge.Session.Sweep

/-!
# LintBridge.Proofs.Aliases

Scripts that are found under several names, or outside of the directory that is searched. Scripts
are found by name, but told by canonical path: a link counts as the file that it points to, wherever
that is. The search does not go through links to directories, so links to files are the only way
out of the directory, and the only way to come to a file twice.

Main result: `Disk.discover_nodup_iff`. That a sweep may go through a file twice, and through files
outside of the workspace, is `Sample.discover_aliased`.
-/

namespace LintBridge

/-- A path lies below a directory. -/
def Path.Holds (base f : Path) : Prop :=
  ∃ names, names ≠ [] ∧ f = base.below names

/-- A list has no element twice just if some elements have no equal, when all the others differ. -/
theorem nodup_map_iff {α β : Type} {f : α → β} {l : List α} (hl : l.Nodup) {P : α → Prop}
    (hrest : ∀ a ∈ l, ∀ b ∈ l, ¬ P a → ¬ P b → f a = f b → a = b) :
    (l.map f).Nodup ↔ ∀ a ∈ l, P a → ∀ b ∈ l, f b = f a → b = a := by
  rw [List.nodup_map_iff_inj_on hl]
  constructor
  · exact fun h a ha _ b hb hab => h b hb a ha hab
  · intro h a ha b hb hab
    by_cases hPa : P a
    · exact (h a ha hPa b hb hab.symm).symm
    · by_cases hPb : P b
      · exact h b hb hPb a ha hab
      · exact hrest a ha b hb hPa hPb hab

namespace Disk

open Node LintBridge.Path

variable {disk : Disk} {root : Path} {node : Node}

/-- Every script that is found has a canonical path. -/
theorem WellNamed.exists_place (hdisk : disk.WellNamed) (hroot : root.Rooted) (search : Search) :
    ∃ place : List Spelling → Path, ∀ rel ∈ disk.namesBelow search disk.searchDepth root,
      disk.canonical (root.below rel) = .ok (place rel) := by
  refine ⟨fun rel => (disk.canonical (root.below rel)).toOption.getD .root, fun rel hrel => ?_⟩
  have hscript : root.below rel ∈ disk.scriptsBelow search disk.searchDepth root := by
    rw [scriptsBelow_eq]
    exact List.mem_map_of_mem hrel
  have hrooted := hdisk.rooted_scriptsBelow search disk.searchDepth hroot _ hscript
  obtain ⟨f, hf, -⟩ := canonical_of_rooted hdisk.toSpellable hrooted
  dsimp only
  rw [hf]
  rfl

/-- The scripts below a directory, with any links on the disk.

* Each of them is found under one name, in the order of `Precedes`, and goes into the list by its
  canonical path. The list is what a sweep goes through.
* The canonical path of a script that is no link tells its name, and lies below the directory.
* So no path comes twice just if no link among the scripts leads to where another script is, and no
  path lies outside just if no link among the scripts leads out. -/
theorem discover_nodup_iff (hdisk : disk.WellNamed) (habsolute : root.isAbsolute = true)
    (hnode : disk.stat root = .found node) (excluded : List Spelling) :
    ∃ (base : Path) (found : List (List Spelling)) (place : List Spelling → Path),
      disk.canonical root = .ok base ∧
      disk.discover { excluded } root = .ok (found.map place) ∧
      (∀ s : Session, s.disk = disk → s.listed = none →
        s.settings.excludeDirs.map Letters.ofString = excluded →
        Sweep.files s root = .ok (found.map place)) ∧
      found.Pairwise Precedes ∧
      (∀ rel, rel ∈ found ↔ disk.HasScript { excluded } root node rel) ∧
      (∀ rel ∈ found, disk.canonical (root.below rel) = .ok (place rel) ∧
        (node.linkTo? rel = none → place rel = base.below rel)) ∧
      ((found.map place).Nodup ↔ ∀ rel ∈ found, node.linkTo? rel ≠ none →
        ∀ rel' ∈ found, place rel' = place rel → rel' = rel) ∧
      ((∀ f ∈ found.map place, base.Holds f) ↔
        ∀ rel ∈ found, node.linkTo? rel ≠ none → base.Holds (place rel)) := by
  obtain ⟨dest, links, hgets, hfind⟩ := exists_gets habsolute hnode
  have hroot := hdisk.rooted habsolute hnode
  obtain ⟨n, hleads⟩ := hgets.leads
  have hbase := (canonical_of_leads hdisk.toSpellable hroot hleads).1
  have hordered := pairwise_namesBelow hdisk { excluded } disk.searchDepth root
  have hmem (rel : List Spelling) : rel ∈ disk.namesBelow { excluded } disk.searchDepth root ↔
      disk.HasScript { excluded } root node rel :=
    hgets.mem_namesBelow hdisk (by simp [Search.StaysIn]) hfind (height_le_searchDepth hfind)
  obtain ⟨place, hplace⟩ := hdisk.exists_place hroot { excluded }
  have hown (rel : List Spelling) (hrel : rel ∈ disk.namesBelow { excluded } disk.searchDepth root)
      (hlink : node.linkTo? rel = none) : place rel = Path.below ⟨.root, dest⟩ rel := by
    obtain ⟨inner, hinner⟩ := ((hmem rel).1 hrel).entry
    have hcanonical := hgets.canonical_below hdisk hroot hfind hinner
      (isLink_eq_false hinner hlink)
    exact Except.ok.inj ((hplace rel hrel).symm.trans hcanonical)
  have hdiscover := discover_eq_ok hroot hplace
  refine ⟨⟨.root, dest⟩, _, place, hbase, hdiscover, fun s hs hlisted hexcluded => ?_, hordered,
    hmem, fun rel hrel => ⟨hplace rel hrel, hown rel hrel⟩, ?_, ?_⟩
  · rw [Sweep.files, hlisted, hs, hexcluded]
    exact hdiscover
  · -- Scripts that are no links have different canonical paths, as they have different names.
    refine nodup_map_iff (Precedes.nodup hordered) fun a ha b hb hna hnb heq => ?_
    rw [hown a ha (not_not.1 hna), hown b hb (not_not.1 hnb)] at heq
    exact below_injective _ heq
  · rw [List.forall_mem_map]
    refine ⟨fun h rel hrel _ => h rel hrel, fun h rel hrel => ?_⟩
    by_cases hlink : node.linkTo? rel = none
    · exact ⟨rel, ((hmem rel).1 hrel).ne_nil, hown rel hrel hlink⟩
    · exact h rel hrel hlink

end Disk

namespace Sample

/-- A script in a workspace, a link to it beside it, and a link to a text outside. -/
def aliased : List (Spelling × Node) :=
  [("ws", .directory [("s.nu", .file [] false), ("a.nu", .link "s.nu"), ("o.nu", .link "../o")]),
    ("o", .file [] false)]

theorem wellNamed_aliased : (diskOf aliased).WellNamed :=
  wellNamed_diskOf (by decide)

theorem scriptsBelow_aliased :
    (diskOf aliased).scriptsBelow {} (diskOf aliased).searchDepth ⟨.root, ["ws"]⟩ =
      [⟨.root, ["ws", "a.nu"]⟩, ⟨.root, ["ws", "o.nu"]⟩, ⟨.root, ["ws", "s.nu"]⟩] := by
  cbv

/-- The script is found twice, and the text outside counts as a script. -/
theorem discover_aliased : (diskOf aliased).WellNamed ∧
    (diskOf aliased).canonical ⟨.root, ["ws"]⟩ = .ok ⟨.root, ["ws"]⟩ ∧
      ∃ files, (diskOf aliased).discover {} ⟨.root, ["ws"]⟩ = .ok files ∧ ¬ files.Nodup ∧
        ∃ f ∈ files, ¬ Path.Holds ⟨.root, ["ws"]⟩ f := by
  have hbase : (diskOf aliased).canonical ⟨.root, ["ws"]⟩ = .ok ⟨.root, ["ws"]⟩ := by
    cbv
  have halias : (diskOf aliased).canonical ⟨.root, ["ws", "a.nu"]⟩ =
      .ok ⟨.root, ["ws", "s.nu"]⟩ := by
    cbv
  have houter : (diskOf aliased).canonical ⟨.root, ["ws", "o.nu"]⟩ = .ok ⟨.root, ["o"]⟩ := by
    cbv
  have hscript : (diskOf aliased).canonical ⟨.root, ["ws", "s.nu"]⟩ =
      .ok ⟨.root, ["ws", "s.nu"]⟩ := by
    cbv
  have hfiles : (diskOf aliased).discover {} ⟨.root, ["ws"]⟩ =
      .ok [⟨.root, ["ws", "s.nu"]⟩, ⟨.root, ["o"]⟩, ⟨.root, ["ws", "s.nu"]⟩] := by
    have hroot : Path.Rooted ⟨.root, ["ws"]⟩ := ⟨rfl, by simp [Path.NulFree]⟩
    rw [Disk.discover_eq hroot, ← Disk.scriptsBelow_eq, scriptsBelow_aliased]
    simp only [List.mapM_cons, halias, houter, hscript]
    rfl
  refine ⟨wellNamed_aliased, hbase, _, hfiles, by decide, ⟨.root, ["o"]⟩, by simp, ?_⟩
  rintro ⟨names, -, hnames⟩
  simp [Path.below] at hnames

/-- A script and a link to a text, which is in a directory of its own. -/
def borrowed : List (Spelling × Node) :=
  [("s.nu", .file [] false), ("l.nu", .link "d/t"), ("d", .directory [("t", .file [] false)])]

theorem wellNamed_borrowed : (diskOf borrowed).WellNamed :=
  wellNamed_diskOf (by decide)

theorem scriptsBelow_borrowed :
    (diskOf borrowed).scriptsBelow { excluded := ["d"] } (diskOf borrowed).searchDepth .root =
      [⟨.root, ["l.nu"]⟩, ⟨.root, ["s.nu"]⟩] := by
  cbv

/-- A sweep goes through the text, in a directory that is excluded. No other name leads where the
link leads. -/
theorem files_borrowed : (diskOf borrowed).WellNamed ∧ Path.root.isAbsolute = true ∧
    (diskOf borrowed).stat .root = .found (.directory borrowed) ∧
      (∀ s : Session, s.disk = diskOf borrowed → s.listed = none →
        s.settings.excludeDirs = ["d"] →
          Sweep.files s .root = .ok [⟨.root, ["d", "t"]⟩, ⟨.root, ["s.nu"]⟩]) ∧
      ∀ rel rel',
        (diskOf borrowed).HasScript { excluded := ["d"] } .root (.directory borrowed) rel →
        (diskOf borrowed).HasScript { excluded := ["d"] } .root (.directory borrowed) rel' →
        (Node.directory borrowed).linkTo? rel ≠ none →
        (diskOf borrowed).canonical (Path.root.below rel') =
          (diskOf borrowed).canonical (Path.root.below rel) → rel' = rel := by
  have hlink : (diskOf borrowed).canonical ⟨.root, ["l.nu"]⟩ = .ok ⟨.root, ["d", "t"]⟩ := by
    cbv
  have hscript : (diskOf borrowed).canonical ⟨.root, ["s.nu"]⟩ = .ok ⟨.root, ["s.nu"]⟩ := by
    cbv
  have hfiles : (diskOf borrowed).discover { excluded := ["d"] } .root =
      .ok [⟨.root, ["d", "t"]⟩, ⟨.root, ["s.nu"]⟩] := by
    have hroot : Path.Rooted .root := ⟨rfl, by simp [Path.NulFree, Path.root]⟩
    rw [Disk.discover_eq hroot, ← Disk.scriptsBelow_eq, scriptsBelow_borrowed]
    simp only [List.mapM_cons, hlink, hscript]
    rfl
  obtain ⟨base, found, place, -, hdiscover, hsweep, -, hfound, hplace, hnodup, -⟩ :=
    @Disk.discover_nodup_iff _ .root _ wellNamed_borrowed rfl rfl ["d"]
  have hlist := Except.ok.inj (hdiscover.symm.trans hfiles)
  have hdistinct : (found.map place).Nodup := by
    rw [hlist]
    decide
  refine ⟨wellNamed_borrowed, rfl, rfl, fun s hs hlisted hexcluded => ?_,
    fun rel rel' hrel hrel' hlinks hsame => ?_⟩
  · rw [hsweep s hs hlisted (by rw [hexcluded]; rfl), hlist]
  · replace hrel := (hfound rel).2 hrel
    replace hrel' := (hfound rel').2 hrel'
    rw [(hplace rel hrel).1, (hplace rel' hrel').1] at hsame
    exact hnodup.1 hdistinct rel hrel hlinks rel' hrel' (Except.ok.inj hsame)

end Sample

end LintBridge
