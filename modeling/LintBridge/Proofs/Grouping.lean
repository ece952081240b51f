import LintBridge.Report.Grouping
import Mathlib.Data.List.Forall2

/-!
# LintBridge.Proofs.Grouping

The records of a report that are about one file. `Report.about` picks them out by the names in the
report, one by one; `groupedFor_eq` says that grouping comes to the same. A name may be spelled in
any way that is resolved to the file, and the records stay in the order in which they are reported.
-/

namespace LintBridge

/-- Going through a list comes to an end without a failure if no element fails. -/
theorem mapM_isOk_iff {ε α β : Type} (f : α → Except ε β) (l : List α) :
    (∃ bs, l.mapM f = .ok bs) ↔ ∀ a ∈ l, ∃ b, f a = .ok b := by
  induction l with
  | nil => exact ⟨fun _ => by simp, fun _ => ⟨[], rfl⟩⟩
  | cons a rest ih =>
    rw [List.mapM_cons, List.forall_mem_cons, ← ih]
    cases ha : f a with
    | error e => simp
    | ok b => cases hrest : rest.mapM f <;> simp

/-- Going through a list keeps what there is for each element in its place. -/
theorem forall₂_of_mapM {ε α β : Type} {f : α → Except ε β} {l : List α} {bs : List β}
    (h : l.mapM f = .ok bs) : List.Forall₂ (fun a b => f a = .ok b) l bs := by
  induction l generalizing bs with
  | nil =>
    obtain rfl : [] = bs := Except.ok.inj h
    exact .nil
  | cons a rest ih =>
    rw [List.mapM_cons] at h
    obtain ⟨b, hb, h⟩ := bind_eq_ok.1 h
    obtain ⟨others, hothers, h⟩ := bind_eq_ok.1 h
    obtain rfl : b :: others = bs := Except.ok.inj h
    exact .cons hb (ih hothers)

namespace Groups

variable {target : Path}

/-- Entries of one file are put one after another. -/
theorem foldl_add (entries : List (Path × List Record)) (records : List Record)
    (h : ∀ e ∈ entries, e.1 = target) :
    entries.foldl (fun groups (file, rs) => add file rs groups) [(target, records)] =
      [(target, records ++ entries.flatMap (·.2))] := by
  induction entries generalizing records with
  | nil => simp
  | cons e rest ih =>
    obtain ⟨file, rs⟩ := e
    obtain rfl : file = target := h (file, rs) (by simp)
    have hadd : add file rs [(file, records)] = [(file, records ++ rs)] := by simp [add]
    have hrest := ih (records ++ rs) fun e he => h e (List.mem_cons_of_mem _ he)
    rw [List.foldl_cons, List.flatMap_cons, ← List.append_assoc, ← hrest, ← hadd]

/-- The group of a file that all entries are about is listed even if there are none. -/
theorem add_ofEntries (entries : List (Path × List Record)) (h : ∀ e ∈ entries, e.1 = target) :
    add target [] (ofEntries entries) = [(target, entries.flatMap (·.2))] := by
  cases entries with
  | nil => rfl
  | cons e rest =>
    obtain ⟨file, rs⟩ := e
    obtain rfl : file = target := h (file, rs) (by simp)
    have hrest : ∀ e ∈ rest, e.1 = file := fun e he => h e (List.mem_cons_of_mem _ he)
    have hfirst : ofEntries ((file, rs) :: rest) = [(file, rs ++ rest.flatMap (·.2))] :=
      foldl_add rest rs hrest
    rw [hfirst, List.flatMap_cons]
    simp [add]

end Groups

namespace Report

variable {disk : Disk} {workspace fallback : Option Path} {report : Report} {target file : Path}

/-- Whether a name in a report is one of the file. -/
def isNameOf (disk : Disk) (workspace fallback : Option Path) (file : Path) (name : Str) :
    Bool :=
  match disk.reportedAs workspace fallback name with
  | .ok f => f = file
  | .error _ => false

/-- The records that are reported under names of the file, in the order of the report. -/
def about (report : Report) (disk : Disk) (workspace fallback : Option Path) (file : Path) :
    List Record :=
  (report.entries.filter fun entry => isNameOf disk workspace fallback file entry.1).flatMap (·.2)

/-- Resolving the names of a report keeps the records of each name. -/
theorem flatMap_resolved (named : List (Str × List Record))
    (entries : List (Path × List Record))
    (h : (named.mapM fun (name, records) => do
      let file ← disk.reportedAs workspace fallback name
      return (file, records) : Except Fault (List (Path × List Record))) = .ok entries) :
    (entries.filter (·.1 = target)).flatMap (·.2) =
      (named.filter fun entry =>
        isNameOf disk workspace fallback target entry.1).flatMap (·.2) := by
  induction named generalizing entries with
  | nil =>
    obtain rfl : [] = entries := Except.ok.inj h
    rfl
  | cons entry rest ih =>
    obtain ⟨name, records⟩ := entry
    rw [List.mapM_cons] at h
    obtain ⟨named, hnamed, h⟩ := bind_eq_ok.1 h
    obtain ⟨file, hname, hnamed⟩ := bind_eq_ok.1 hnamed
    obtain ⟨others, hothers, h⟩ := bind_eq_ok.1 h
    obtain rfl : (file, records) = named := Except.ok.inj hnamed
    obtain rfl : (file, records) :: others = entries := Except.ok.inj h
    have hrest := ih others hothers
    by_cases hfile : file = target
    · simp [isNameOf, hname, hfile, hrest]
    · simp [isNameOf, hname, hfile, hrest]

/-- The records that are grouped for a file are those about it. -/
theorem groupedFor_eq {groups : Groups}
    (h : report.groupedFor disk workspace fallback target = .ok groups) :
    ∃ file, disk.canonical target = .ok file ∧
      groups = [(file, report.about disk workspace fallback file)] := by
  obtain ⟨file, hc, h⟩ := bind_eq_ok.1 h
  obtain ⟨entries, hentries, h⟩ := bind_eq_ok.1 h
  have hall : ∀ e ∈ entries.filter (·.1 = file), e.1 = file := by
    intro e he
    simpa using (List.mem_filter.1 he).2
  refine ⟨file, hc, ?_⟩
  rw [← Except.ok.inj h, Groups.add_ofEntries _ hall, about,
    ← flatMap_resolved report.entries entries hentries]

theorem resolvedEntries_isOk_iff :
    (∃ entries, report.resolvedEntries disk workspace fallback = .ok entries) ↔
      ∀ entry ∈ report.entries, ∃ f,
        disk.reportedAs workspace fallback entry.1 = .ok f := by
  unfold resolvedEntries
  rw [mapM_isOk_iff]
  refine forall₂_congr fun entry _ => ?_
  cases hname : disk.reportedAs workspace fallback entry.1 <;> simp [hname]

/-- Grouping works out if and only if every name can be resolved. -/
theorem groupedFor_isOk_iff (hfile : disk.canonical target = .ok file) :
    (∃ groups, report.groupedFor disk workspace fallback target = .ok groups) ↔
      ∀ entry ∈ report.entries, ∃ f,
        disk.reportedAs workspace fallback entry.1 = .ok f := by
  rw [← resolvedEntries_isOk_iff]
  unfold groupedFor
  cases report.resolvedEntries disk workspace fallback <;> simp [hfile]

end Report

end LintBridge
