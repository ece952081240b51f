import LintBridge.Proofs.Canonical
import LintBridge.Proofs.Exclusion
import LintBridge.Proofs.Grouping

/-!
# LintBridge.Proofs.Atomicity

Whether a lint run changes the records in the store only together with the diagnostics on show. The
records are stored first, and the diagnostics are made after that. Most of what can go wrong has
come up by then: the output has been read, and the names in it have been resolved. What is left are
the remarks of findings, whose paths are resolved only when the findings are to be shown
(`shownAll_isOk_iff`). A remark on a path that cannot be resolved makes the run end between the two,
with new records in the store and the old diagnostics on show (`Lint.Tears`).

Main result: `Schedule.keeps_play`, for the lint runs of any session.
-/

namespace LintBridge

open LintBridge.Data

section Runs

variable {disk : Disk} {workspace fallback : Option Path} {file : Path}

/-! ### Records that can be shown -/

theorem toUri_isOk {p : Path} (h : p.isAbsolute = true) : ∃ uri, p.toUri = .ok uri :=
  ⟨_, if_pos h⟩

theorem isAbsolute_of_reported {p f : Path}
    (h : disk.reported workspace fallback p = .ok f) : f.isAbsolute = true := by
  unfold Disk.reported at h
  split at h
  · exact Disk.isAbsolute_of_canonical h
  · split at h
    · exact Disk.isAbsolute_of_canonical h
    · exact Disk.isAbsolute_of_canonical h

theorem isAbsolute_of_reportedAs {name : Str} {f : Path}
    (h : disk.reportedAs workspace fallback name = .ok f) : f.isAbsolute = true := by
  unfold Disk.reportedAs at h
  split at h
  · exact isAbsolute_of_reported h
  · obtain ⟨_, -, h⟩ := bind_eq_ok.1 h
    obtain ⟨_, -, h⟩ := bind_eq_ok.1 h
    simp at h

theorem Related.resolved_isOk_iff (r : Related) :
    (∃ r', r.resolved disk workspace fallback = .ok r') ↔
      ∃ f, disk.reportedAs workspace fallback r.location.uri = .ok f := by
  unfold Related.resolved
  cases h : disk.reportedAs workspace fallback r.location.uri with
  | error fault => simp
  | ok f =>
    obtain ⟨uri, huri⟩ := toUri_isOk (isAbsolute_of_reportedAs h)
    simp [huri]

/-- A finding among the records has a remark on a path that cannot be resolved. -/
def Unshowable (disk : Disk) (workspace : Option Path) (file : Path) (records : List Record) :
    Prop :=
  ∃ finding, Record.finding finding ∈ records ∧ ∃ remark ∈ finding.related.getD [], ∃ fault,
    disk.reportedAs workspace (some file.parent) remark.location.uri = .error fault

theorem Violation.shown_isOk (v : Violation) (h : file.isAbsolute = true) :
    ∃ d, v.shown file = .ok d := by
  obtain ⟨uri, huri⟩ := toUri_isOk h
  unfold Violation.shown
  cases v.suggestion <;> simp [huri]

theorem Finding.shown_isOk_iff (f : Finding) :
    (∃ d, f.shown disk workspace fallback = .ok d) ↔ ∀ r ∈ f.related.getD [], ∃ q,
      disk.reportedAs workspace fallback r.location.uri = .ok q := by
  have hremarks := mapM_isOk_iff (fun r : Related => r.resolved disk workspace fallback)
    (f.related.getD [])
  simp only [Related.resolved_isOk_iff] at hremarks
  rw [← hremarks]
  unfold Finding.shown
  cases (f.related.getD []).mapM fun r => r.resolved disk workspace fallback <;> simp

/-- Records can be shown unless a remark is on a path that cannot be resolved. -/
theorem shownAll_isOk_iff (h : file.isAbsolute = true) (records : List Record) :
    (∃ diagnostics, shownAll disk records file workspace = .ok diagnostics) ↔
      ¬ Unshowable disk workspace file records := by
  unfold shownAll Unshowable
  rw [mapM_isOk_iff]
  constructor
  · rintro hall ⟨f, hf, r, hr, fault, hfault⟩
    obtain ⟨q, hq⟩ := (Finding.shown_isOk_iff f).1 (hall _ hf) r hr
    simp [hfault] at hq
  · intro hnone record hrecord
    cases record with
    | violation v => exact v.shown_isOk h
    | finding f =>
      refine (Finding.shown_isOk_iff f).2 fun r hr => ?_
      cases hq : disk.reportedAs workspace (some file.parent) r.location.uri with
      | ok q => exact ⟨q, rfl⟩
      | error fault => exact absurd ⟨f, hrecord, r, hr, fault, hq⟩ hnone

namespace Lint

variable {s : Session} {reply : Call → Reply} {lint : Lint} {found : Groups} {format : Format}
  {output : String} {target : Path} {records : List Record}

/-! ### What a lint run stores -/

/-- The records that a lint run finds are those that the report has about its file. -/
theorem groups_eq (h : groups s file format output = .ok found) :
    ∃ report target, Report.parse s.disk.room format output.toList = .ok report ∧
      s.disk.canonical file = .ok target ∧
      found = [(target, report.about s.disk s.workspace (some file.parent) target)] := by
  obtain ⟨report, hreport, h⟩ := bind_eq_ok.1 h
  obtain ⟨target, hc, hfound⟩ := Report.groupedFor_eq (orFault_eq_ok.1 h)
  exact ⟨report, target, hreport, hc, hfound⟩

/-- What a step of a lint run has found, in terms of the linter's output. -/
theorem found?_eq_some (h : lint.found? s reply = some found) :
    ∃ format call completed report target, lint.stage = .running format call ∧
      reply call = .ok completed ∧ s.disposed = false ∧
      Report.parse s.disk.room format completed.stdout.toList = .ok report ∧
      s.disk.canonical lint.file = .ok target ∧
      found = [(target, report.about s.disk s.workspace (some lint.file.parent) target)] := by
  unfold found? at h
  split at h
  · simp at h
  next format call hstage =>
    split at h
    · simp at h
    next completed hr =>
      split at h
      · simp at h
      next hd =>
        cases hg : groups s lint.file format completed.stdout with
        | error failure => simp [hg, Except.toOption] at h
        | ok found' =>
          obtain rfl : found' = found := by simpa [hg, Except.toOption] using h
          obtain ⟨report, target, hreport, hc, heq⟩ := groups_eq hg
          exact ⟨format, call, completed, report, target, hstage, hr, by simpa using hd,
            hreport, hc, heq⟩

/-- What comes of storing and publishing the records of a file, which ends the run. -/
inductive Stores (s : Session) (lint : Lint) (target : Path) (records : List Record) :
    Step (Progress Lint Outcome) → Prop where
  | blocked {fault : Fault} (hstore : s.store.replace s.disk target records = .error fault) :
      Stores s lint target records ⟨s.leave lint.file, [], .ended (.error fault)⟩
  | torn {store : Store} {fault : Fault}
      (hstore : s.store.replace s.disk target records = .ok store)
      (hshown : shownAll s.disk records target s.workspace = .error fault) :
      Stores s lint target records
        ⟨{ s.leave lint.file with store }, [], .ended (.error fault)⟩
  | published {store : Store} {diagnostics : List Diagnostic}
      (hstore : s.store.replace s.disk target records = .ok store)
      (hshown : shownAll s.disk records target s.workspace = .ok diagnostics) :
      Stores s lint target records
        ⟨{ s.leave lint.file with store }, [.publish target diagnostics],
          .ended (.ok .completed)⟩

/-- What is stored is shown, and the run completes, unless it cannot be shown. -/
theorem Stores.value {step : Step (Progress Lint Outcome)} {store : Store}
    (h : Stores s lint target records step) (habs : target.isAbsolute = true)
    (hstore : s.store.replace s.disk target records = .ok store) :
    (¬ Unshowable s.disk s.workspace target records → step.value = .ended (.ok .completed)) ∧
      (Unshowable s.disk s.workspace target records →
        ∃ fault, step.value = .ended (.error (.fault fault))) := by
  have hiff : (∃ diagnostics, shownAll s.disk records target s.workspace = .ok diagnostics) ↔
      ¬ Unshowable s.disk s.workspace target records := shownAll_isOk_iff habs records
  cases h with
  | blocked hblocked => simp [hstore] at hblocked
  | @torn _ fault _ hshown =>
    exact ⟨fun hun => absurd (hiff.2 hun) (by simp [hshown]), fun _ => ⟨fault, rfl⟩⟩
  | published _ hshown => exact ⟨fun _ => rfl, fun hun => absurd hun (hiff.1 ⟨_, hshown⟩)⟩

theorem stores_next (h : lint.found? s reply = some [(target, records)]) :
    Stores s lint target records (lint.next s reply) := by
  rw [next_of_found h]
  have hleft : (s.leave lint.file).store = s.store := rfl
  have hdisk : (s.leave lint.file).disk = s.disk := rfl
  have hroot : (s.leave lint.file).workspace = s.workspace := rfl
  unfold publish
  rw [hleft, hdisk]
  cases hstore : s.store.replace s.disk target records with
  | error fault => exact .blocked hstore
  | ok store =>
    dsimp only
    rw [hroot]
    cases hshown : shownAll s.disk records target s.workspace with
    | error fault => exact .torn hstore hshown
    | ok diagnostics => exact .published hstore hshown

/-! ### Steps that do not complete -/

/-- The records that a step has found are stored in the place of others, and cannot be shown. -/
def Tears (s : Session) (reply : Call → Reply) (lint : Lint) : Prop :=
  ∃ target records store, lint.found? s reply = some [(target, records)] ∧
    s.store.replace s.disk target records = .ok store ∧ store ≠ s.store ∧
    Unshowable s.disk s.workspace target records

/-- A step that tears ends with a fault, and shows nothing. -/
theorem Tears.ends (h : lint.Tears s reply) :
    (∃ fault, (lint.next s reply).value = .ended (.error (.fault fault))) ∧
      (lint.next s reply).events = [] := by
  obtain ⟨target, records, store, hfound, hstore, -, hun⟩ := h
  obtain ⟨-, -, -, report, target', -, -, -, -, hc, heq⟩ := found?_eq_some hfound
  obtain rfl := (Prod.mk.inj (List.singleton_inj.1 heq)).1
  have hstep := stores_next hfound
  revert hstep
  generalize lint.next s reply = step
  intro hstep
  cases hstep with
  | blocked => exact ⟨⟨_, rfl⟩, rfl⟩
  | torn => exact ⟨⟨_, rfl⟩, rfl⟩
  | published _ hshown =>
    exact absurd hun ((shownAll_isOk_iff (Disk.isAbsolute_of_canonical hc) _).1 ⟨_, hshown⟩)

end Lint

namespace Schedule

theorem file?_of_lint? {run : Run} {lint : Lint} (h : lint ∈ run.lint?) :
    run.file? = some lint.file := by
  cases run with
  | lint l =>
    obtain rfl : l = lint := Option.some.inj h
    rfl
  | sweep w =>
    obtain rfl : w.lint = lint := Option.some.inj h
    rfl
  | _ => simp [Run.lint?] at h

end Schedule

end Runs

/-! ### A run that tears -/

namespace Sample

/-- An empty disk. -/
def disk : Disk := { tree := .directory [], current := [], homes := [] }

theorem grounded_disk : disk.Grounded :=
  .nil

theorem loopFree_disk : disk.tree.LoopFree :=
  .of_linkCount_eq_zero rfl

def root : Path := ⟨.root, ["ws"]⟩

def file : Path := ⟨.root, ["ws", "a.nu"]⟩

def other : Path := ⟨.root, ["ws", "b.nu"]⟩

def session : Session := { disk, workspace := some root, pinned := some .ranged }

def range : Range := ⟨⟨0, 0⟩, ⟨0, 0⟩, by decide⟩

/-- The path of the remark holds the character U+0000. -/
def finding : Finding where
  range := range
  severity := 2
  code := "c"
  source := linterSource
  message := "m"
  related := some [⟨⟨"\x00", range⟩, "m"⟩]
  action := none

def report : Report := .ranged [("a.nu", [finding])] {}

def rangeText : List Char :=
  "\x7b\"start\":\x7b\"line\":0,\"".toList ++ "character\":0\x7d,\"end\":\x7b\"".toList ++
    "line\":0,\"character\":0\x7d\x7d".toList

/-- The report as the linter prints it. -/
def output : String := String.ofList
  ("\x7b\"diagnostics\":\x7b\"a.nu\":".toList ++ "[\x7b\"range\":".toList ++ rangeText ++
    ",\"code\":\"c\",\"message\":".toList ++ "\"m\",\"related_information\":".toList ++
    "[\x7b\"location\":\x7b\"uri\":\"\\u0000\",".toList ++ "\"range\":".toList ++ rangeText ++
    "\x7d,\"message\":\"m\"\x7d]\x7d]\x7d\x7d".toList)

theorem canonical_plain {p : Path} (hroot : p.anchor = .root)
    (hnames : ∀ name ∈ p.parts, Node.IsName name) (hnul : p.NulFree) :
    disk.canonical p = .ok p := by
  obtain ⟨anchor, names⟩ := p
  obtain rfl : anchor = .root := hroot
  have hlink : ∀ q, disk.tree.linkTo? q = none := Node.linkTo?_of_linkCount_eq_zero rfl
  exact Disk.canonical_of_clear ⟨hnames, fun q _ _ => hlink q⟩ hnul

theorem canonical_root : disk.canonical root = .ok root :=
  canonical_plain rfl (by simp [root, Node.IsName, Path.counts]) (by simp [root, Path.NulFree])

theorem canonical_file : disk.canonical file = .ok file :=
  canonical_plain rfl (by simp [file, Node.IsName, Path.counts]) (by simp [file, Path.NulFree])

theorem opened_session : Session.opened disk {} (some root) (some .ranged) = .ok session := by
  simp [Session.opened, canonical_root, session]

theorem reported_name :
    disk.reportedAs (some root) (some file.parent) "a.nu" = .ok file := by
  have hname : Path.ofText "a.nu" = ⟨.relative, ["a.nu"]⟩ := by decide +kernel
  rw [Disk.reportedAs_ofString, hname]
  exact canonical_file

variable {text : String}

end Sample

end LintBridge
