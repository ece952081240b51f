import LintBridge.Path.Discovery
import LintBridge.Session.Lint

/-!
# LintBridge.Session.Sweep

Linting all files of the workspace, one after another. A file that fails is noted and does not stop
the sweep, and the message at the end is shown whatever happened to the files.
-/

namespace LintBridge

/-- What has come of a sweep: the files that were checked, and those of them that failed. -/
structure SweepReport where
  checked : List Path := []
  failed : List Path := []
  deriving DecidableEq, Repr

namespace SweepReport

/-- The message at the end of a sweep. -/
def message (r : SweepReport) : String :=
  let text := s!"Workspace linting complete. Checked {r.checked.length} files."
  if r.failed.isEmpty then text
  else s!"{text} {r.failed.length} failed; see the log for details."

/-- The report with the outcome for one more file. -/
def add (r : SweepReport) (file : Path) : Outcome → SweepReport
  | .skipped => r
  | .failed => ⟨r.checked ++ [file], r.failed ++ [file]⟩
  | .completed | .inFlight => ⟨r.checked ++ [file], r.failed⟩

end SweepReport

/-- A sweep that waits: the run for the file `current` waits, and the files in `rest` come next. -/
structure Sweep where
  lint : Lint
  current : Path
  rest : List Path
  report : SweepReport
  deriving DecidableEq, Repr

namespace Sweep

/-- The files that a sweep goes through. -/
def files (s : Session) (root : Path) : Except Fault (List Path) :=
  match s.listed with
  | some files => .ok files
  | none => s.disk.discover { excluded := s.settings.excludeDirs.map Letters.ofString } root

/-- Goes through files as far as it goes without waiting. -/
def through (s : Session) (report : SweepReport) : List Path → Step (Progress Sweep SweepReport)
  | [] => ⟨s, [.showInfo report.message], .ended (.ok report)⟩
  | file :: rest =>
    let step := Lint.start s file false
    match step.value with
    | .waiting lint => ⟨step.session, step.events, .waiting ⟨lint, file, rest, report⟩⟩
    | .ended (.error failure) => ⟨step.session, step.events, .ended (.error failure)⟩
    | .ended (.ok outcome) =>
      (through step.session (report.add file outcome) rest).after step.events

/-- Begins a sweep. -/
def start (s : Session) : Step (Progress Sweep SweepReport) :=
  if !s.isActive then ⟨s, [], .ended (.ok {})⟩
  else
    match s.workspace with
    | none => ⟨s, [.showInfo "No workspace folder found"], .ended (.ok {})⟩
    | some root =>
      match files s root with
      | .error fault => ⟨s, [], .ended (.error fault)⟩
      | .ok [] => ⟨s, [.showInfo "No .nu files found in workspace"], .ended (.ok {})⟩
      | .ok files => through s {} files

/-- Goes on with a sweep: the run for its current file goes on. -/
def next (s : Session) (reply : Call → Reply) (sweep : Sweep) :
    Step (Progress Sweep SweepReport) :=
  let step := Lint.next s reply sweep.lint
  match step.value with
  | .waiting lint => ⟨step.session, step.events, .waiting { sweep with lint }⟩
  | .ended (.error failure) => ⟨step.session, step.events, .ended (.error failure)⟩
  | .ended (.ok outcome) =>
    (through step.session (sweep.report.add sweep.current outcome) sweep.rest).after step.events

/-! ### How often a sweep goes on -/

/-- A bound on how often a sweep can go on. -/
def rank (sweep : Sweep) : Nat :=
  sweep.lint.rank + 3 * sweep.rest.length

/-- A sweep that waits at one of some files is bounded by their number. -/
theorem rank_through {s : Session} {report : SweepReport} {files : List Path} {sweep : Sweep}
    (h : (through s report files).value = .waiting sweep) : sweep.rank ≤ 3 * files.length := by
  induction files generalizing s report with
  | nil => simp [through] at h
  | cons file rest ih =>
    simp only [through] at h
    split at h
    next lint _ =>
      simp only [Progress.waiting.injEq] at h
      have := lint.rank_le
      simp only [← h, rank, List.length_cons]
      omega
    next => simp at h
    next =>
      have := ih h
      simp only [List.length_cons]
      omega

/-- Every step of a sweep that does not end it lowers its rank. -/
theorem rank_next {s : Session} {reply : Call → Reply} {w w' : Sweep}
    (h : (w.next s reply).value = .waiting w') : w'.rank < w.rank := by
  simp only [next] at h
  split at h
  next lint hl =>
    simp only [Progress.waiting.injEq] at h
    have := Lint.rank_next hl
    simp only [← h, rank]
    omega
  next => simp at h
  next =>
    have hw' : w'.rank ≤ 3 * w.rest.length := rank_through h
    have := w.lint.rank_pos
    have hr : w.rank = w.lint.rank + 3 * w.rest.length := rfl
    omega

end Sweep

end LintBridge
