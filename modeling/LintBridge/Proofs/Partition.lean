import LintBridge.Proofs.Matching
import Mathlib.Data.List.Induction

/-!
# LintBridge.Proofs.Partition

All records of a report by file. The entries of a report are added one after another, and adding
one leaves every record that is there in its place (`Groups.lookup_add`, `Groups.perm_add`); the
facts about whole reports follow by induction on the entries, the last of them first. Grouping for
one file finds what grouping for all files finds for it.

Main result: `Report.grouped_partitions`.
-/

namespace LintBridge

namespace Groups

variable {groups : Groups} {file f : Path} {records : List Record}
  {entries : List (Path × List Record)}

/-! ### Adding one entry -/

theorem lookup_add : (add file records groups).lookup f =
    if f = file then some ((groups.lookup file).getD [] ++ records) else groups.lookup f := by
  induction groups with
  | nil =>
    by_cases h : f = file
    · simp [add, h]
    · have hf : (f == file) = false := by simp [h]
      simp [add, List.lookup_cons, h, hf]
  | cons group rest ih =>
    obtain ⟨g, rs⟩ := group
    by_cases hg : g = file
    · subst hg
      by_cases h : f = g
      · simp [add, h]
      · have hf : (f == g) = false := by simp [h]
        simp [add, List.lookup_cons, h, hf]
    · have hfile : (file == g) = false := by simp [Ne.symm hg]
      simp only [add, hg, if_false, List.lookup_cons, hfile, ih]
      by_cases h : f = g
      · simp [h, hg]
      · have hf : (f == g) = false := by simp [h]
        rw [hf]

theorem mem_files_add :
    f ∈ (add file records groups).map (·.1) ↔ f = file ∨ f ∈ groups.map (·.1) := by
  induction groups with
  | nil => simp [add]
  | cons group rest ih =>
    obtain ⟨g, rs⟩ := group
    by_cases hg : g = file
    · simp [add, hg]
    · simp only [add, hg, if_false, List.map_cons, List.mem_cons, ih]
      exact or_left_comm

theorem nodup_add (h : (groups.map (·.1)).Nodup) :
    ((add file records groups).map (·.1)).Nodup := by
  induction groups with
  | nil => simp [add]
  | cons group rest ih =>
    obtain ⟨g, rs⟩ := group
    by_cases hg : g = file
    · simpa [add, hg] using h
    · obtain ⟨hnot, hrest⟩ := List.nodup_cons.1 h
      rw [add, if_neg hg, List.map_cons, List.nodup_cons, mem_files_add]
      exact ⟨not_or.2 ⟨hg, hnot⟩, ih hrest⟩

theorem perm_add :
    ((add file records groups).flatMap (·.2)).Perm (groups.flatMap (·.2) ++ records) := by
  induction groups with
  | nil => simp [add]
  | cons group rest ih =>
    obtain ⟨g, rs⟩ := group
    by_cases hg : g = file
    · simp only [add, hg, if_true, List.flatMap_cons, List.append_assoc]
      exact List.perm_append_comm.append_left rs
    · simp only [add, hg, if_false, List.flatMap_cons, List.append_assoc]
      exact ih.append_left rs

/-! ### Adding all entries -/

theorem ofEntries_concat (entries : List (Path × List Record)) (entry : Path × List Record) :
    ofEntries (entries ++ [entry]) = add entry.1 entry.2 (ofEntries entries) := by
  simp [ofEntries, List.foldl_append]

theorem nodup_ofEntries (entries : List (Path × List Record)) :
    ((ofEntries entries).map (·.1)).Nodup := by
  induction entries using List.reverseRecOn with
  | nil => simp [ofEntries]
  | append_singleton entries entry ih =>
    rw [ofEntries_concat]
    exact nodup_add ih

theorem mem_files_ofEntries :
    f ∈ (ofEntries entries).map (·.1) ↔ f ∈ entries.map (·.1) := by
  induction entries using List.reverseRecOn with
  | nil => simp [ofEntries]
  | append_singleton entries entry ih =>
    rw [ofEntries_concat, mem_files_add, ih, List.map_append, List.mem_append]
    exact or_comm.trans (or_congr_right List.mem_singleton.symm)

/-- The records of a file are those of its entries, one entry after another. -/
theorem lookup_ofEntries (entries : List (Path × List Record)) (f : Path) :
    ((ofEntries entries).lookup f).getD [] = (entries.filter (·.1 = f)).flatMap (·.2) := by
  induction entries using List.reverseRecOn with
  | nil => simp [ofEntries]
  | append_singleton entries entry ih =>
    rw [ofEntries_concat, lookup_add, List.filter_append, List.flatMap_append]
    by_cases h : f = entry.1
    · subst h
      simp [ih]
    · simp [h, Ne.symm h, ih]

/-- No record is lost, and none comes in twice. -/
theorem perm_ofEntries (entries : List (Path × List Record)) :
    ((ofEntries entries).flatMap (·.2)).Perm (entries.flatMap (·.2)) := by
  induction entries using List.reverseRecOn with
  | nil => simp [ofEntries]
  | append_singleton entries entry ih =>
    rw [ofEntries_concat, List.flatMap_append, List.flatMap_singleton]
    exact perm_add.trans (ih.append_right _)

end Groups

namespace Report

variable {disk : Disk} {workspace fallback : Option Path} {report : Report}
  {entries : List (Path × List Record)} {file : Path}

/-! ### The records of a report -/

/-- The records of a report in its order, each with the file name that it is reported under. -/
def named : Report → List (Str × Record)
  | legacy violations _ => violations.map fun v => (v.file, .violation v)
  | ranged files _ => files.flatMap fun (name, findings) => findings.map fun f => (name, .finding f)

theorem flatMap_entries (report : Report) :
    (report.entries.flatMap fun entry => entry.2.map (entry.1, ·)) = report.named := by
  cases report with
  | legacy violations summary =>
    simp only [entries, named, List.flatMap_map, List.map_cons, List.map_nil]
    exact List.map_eq_flatMap.symm
  | ranged files summary => simp [entries, named, List.flatMap_map, Function.comp_def]

/-- The records about a file are picked out of the report one by one. -/
theorem about_eq (report : Report) (file : Path) :
    report.about disk workspace fallback file =
      (report.named.filter fun r => isNameOf disk workspace fallback file r.1).map (·.2) := by
  rw [about, ← flatMap_entries]
  induction report.entries with
  | nil => rfl
  | cons entry rest ih =>
    obtain ⟨name, records⟩ := entry
    rw [List.flatMap_cons, List.filter_append, List.map_append, ← ih]
    by_cases h : isNameOf disk workspace fallback file name = true
    · simp [h, List.filter_map, Function.comp_def]
    · simp [h, List.filter_map, Function.comp_def]

/-! ### Grouping all of them -/

/-- The entries of a report, and what they are once their names have been resolved. -/
def Resolve (disk : Disk) (workspace fallback : Option Path) (named : List (Str × List Record))
    (entries : List (Path × List Record)) : Prop :=
  List.Forall₂ (fun entry e => disk.reportedAs workspace fallback entry.1 = .ok e.1 ∧
    e.2 = entry.2) named entries

theorem resolve_of_resolvedEntries
    (h : report.resolvedEntries disk workspace fallback = .ok entries) :
    Resolve disk workspace fallback report.entries entries := by
  refine (forall₂_of_mapM h).imp fun entry e he => ?_
  obtain ⟨f, hf, he⟩ := bind_eq_ok.1 he
  obtain rfl : (f, entry.2) = e := Except.ok.inj he
  exact ⟨hf, rfl⟩

variable {names : List (Str × List Record)}

theorem Resolve.mem_files (h : Resolve disk workspace fallback names entries) :
    file ∈ entries.map (·.1) ↔
      ∃ entry ∈ names, disk.reportedAs workspace fallback entry.1 = .ok file := by
  induction h with
  | nil => simp
  | @cons entry e names entries hfirst _ ih =>
    rw [List.map_cons, List.mem_cons, ih, List.exists_mem_cons_iff, hfirst.1]
    exact or_congr_left ⟨fun heq => heq ▸ rfl, fun heq => (Except.ok.inj heq).symm⟩

/-- Resolving names changes no record. -/
theorem Resolve.records (h : Resolve disk workspace fallback names entries) :
    entries.flatMap (·.2) = names.flatMap (·.2) := by
  induction h with
  | nil => rfl
  | cons hfirst _ ih => rw [List.flatMap_cons, List.flatMap_cons, ih, hfirst.2]

/-- The groups hold the records of the report. -/
structure Partitions (report : Report) (disk : Disk) (workspace fallback : Option Path)
    (groups : Groups) : Prop where
  /-- No file is listed twice, under whatever names it is reported. -/
  distinct : (groups.map (·.1)).Nodup
  /-- The files are those that the report names. -/
  files : ∀ file, file ∈ groups.map (·.1) ↔
    ∃ entry ∈ report.entries, disk.reportedAs workspace fallback entry.1 = .ok file
  /-- The records of a file are those reported under its names, in the order of the report. -/
  records : ∀ group ∈ groups, group.2 =
    (report.named.filter fun r => isNameOf disk workspace fallback group.1 r.1).map (·.2)
  /-- Every record comes exactly once. -/
  whole : (groups.flatMap (·.2)).Perm (report.named.map (·.2))

theorem partitions_ofEntries (h : report.resolvedEntries disk workspace fallback = .ok entries) :
    report.Partitions disk workspace fallback (Groups.ofEntries entries) := by
  have hresolve := resolve_of_resolvedEntries h
  refine ⟨Groups.nodup_ofEntries entries, fun file => ?_, fun group hgroup => ?_, ?_⟩
  · rw [Groups.mem_files_ofEntries, hresolve.mem_files]
  · have hlookup := lookup_of_mem (Groups.nodup_ofEntries entries) hgroup
    rw [← about_eq, about, ← flatMap_resolved report.entries entries h, ← Groups.lookup_ofEntries,
      hlookup, Option.getD_some]
  · have hall : report.named.map (·.2) = entries.flatMap (·.2) := by
      rw [hresolve.records, ← flatMap_entries, List.map_flatMap]
      simp [Function.comp_def]
    rw [hall]
    exact Groups.perm_ofEntries entries

/-- Grouping for a file finds what grouping for all files finds for it. -/
theorem groupedFor_eq_lookup (h : report.resolvedEntries disk workspace fallback = .ok entries)
    (target : Path) : report.groupedFor disk workspace fallback target =
      (disk.canonical target).map fun file =>
        [(file, ((Groups.ofEntries entries).lookup file).getD [])] := by
  unfold groupedFor
  cases hcanonical : disk.canonical target with
  | error fault => rfl
  | ok file =>
    have hall : ∀ e ∈ entries.filter (·.1 = file), e.1 = file := by
      intro e he
      simpa using (List.mem_filter.1 he).2
    rw [ok_bind, h, ok_bind, pure_eq_ok, Groups.add_ofEntries _ hall, ← Groups.lookup_ofEntries]
    rfl

/-- If the names in a report can be resolved, grouping divides its records up among the files that
it names, and grouping for a file yields just the part of that file, be it empty. -/
theorem grouped_partitions (h : ∀ entry ∈ report.entries, ∃ file,
      disk.reportedAs workspace fallback entry.1 = .ok file) :
    ∃ groups, report.grouped disk workspace fallback = .ok groups ∧
      report.Partitions disk workspace fallback groups ∧
      ∀ target, report.groupedFor disk workspace fallback target =
        (disk.canonical target).map fun file => [(file, (groups.lookup file).getD [])] := by
  obtain ⟨entries, hentries⟩ := resolvedEntries_isOk_iff.2 h
  refine ⟨Groups.ofEntries entries, ?_, partitions_ofEntries hentries,
    groupedFor_eq_lookup hentries⟩
  rw [grouped, hentries]
  rfl

end Report

namespace Sample

/-- Four violations, three of them in one file, which is spelled differently each time. -/
def spellings : Report :=
  .legacy [{ mendable with rule := "1" }, { mendable with rule := "2", file := "b.nu" },
    { mendable with rule := "3", file := "./a.nu" },
    { mendable with rule := "4", file := "/ws/a.nu" }] {}

theorem reported_spellings : ∀ entry ∈ spellings.entries, ∃ f,
    disk.reportedAs (some root) none entry.1 = .ok f := by
  have hname : Path.ofText "a.nu" = ⟨.relative, ["a.nu"]⟩ := by decide +kernel
  have hother : Path.ofText "b.nu" = ⟨.relative, ["b.nu"]⟩ := by decide +kernel
  have hdot : Path.ofText "./a.nu" = ⟨.relative, ["a.nu"]⟩ := by decide +kernel
  have hfull : Path.ofText "/ws/a.nu" = file := by decide +kernel
  have hcanonical : disk.canonical ⟨.root, ["ws", "b.nu"]⟩ = .ok ⟨.root, ["ws", "b.nu"]⟩ :=
    canonical_plain rfl (by simp [Node.IsName, Path.counts]) (by simp [Path.NulFree])
  simp only [spellings, Report.entries, List.forall_mem_map, List.forall_mem_cons]
  refine ⟨⟨file, ?_⟩, ⟨⟨.root, ["ws", "b.nu"]⟩, ?_⟩, ⟨file, ?_⟩, ⟨file, ?_⟩, by simp⟩
  · rw [show mendable.file = "a.nu" from rfl, Disk.reportedAs_ofString, hname]
    exact canonical_file
  · rw [Disk.reportedAs_ofString, hother]
    exact hcanonical
  · rw [Disk.reportedAs_ofString, hdot]
    exact canonical_file
  · rw [Disk.reportedAs_ofString, hfull]
    exact canonical_file

theorem grouped_partitions_spellings : ∃ groups,
    spellings.grouped disk (some root) none = .ok groups ∧
      spellings.Partitions disk (some root) none groups ∧
      ∀ target, spellings.groupedFor disk (some root) none target =
        (disk.canonical target).map fun file => [(file, (groups.lookup file).getD [])] :=
  Report.grouped_partitions reported_spellings

end Sample

end LintBridge
