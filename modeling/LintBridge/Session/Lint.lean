import LintBridge.Record.Shown
import LintBridge.Report.Grouping
import LintBridge.Report.Output
import LintBridge.Session.Inquiry

/-!
# LintBridge.Session.Lint

Linting one file. A request is let in only if the file is to be linted at all and no run for it is
in flight. The run then finds out the report format, calls the linter, and puts the records that are
about the file in the place of those that were stored before. A failure of the linter is made known
and leaves all records as they are.
-/

namespace LintBridge

/-- How a request to lint a file can end. -/
inductive Outcome where
  | completed
  /-- The file is not to be linted. -/
  | skipped
  /-- A run for the file is in flight already. -/
  | inFlight
  | failed
  deriving DecidableEq, Repr

/-- The name of an outcome. -/
def Outcome.name : Outcome → String
  | completed => "completed"
  | skipped => "skipped"
  | inFlight => "in_flight"
  | failed => "failed"

/-- What a lint run waits for. -/
inductive Lint.Stage where
  /-- It waits for the version. -/
  | inquiring (inquiry : Inquiry)
  /-- It waits for the linter. -/
  | running (format : Format) (call : Call)
  deriving DecidableEq, Repr

/-- A lint run that waits. With `notify` the user is told of failures. -/
structure Lint where
  file : Path
  notify : Bool
  stage : Lint.Stage
  deriving DecidableEq, Repr

namespace Lint

/-- The run of the linter that a lint run waits for. -/
def call? (lint : Lint) : Option Call :=
  match lint.stage with
  | .inquiring inquiry => inquiry.call?
  | .running _ call => some call

/-- Whether a lint run waits for its turn. -/
def isQueueing (lint : Lint) : Bool :=
  match lint.stage with
  | .inquiring .queueing => true
  | _ => false

/-- How much of an output that is no JSON is logged. -/
def maxLogged : Nat := 2000

/-- What is logged about an output that is no report. -/
def outputLog (format : Format) (output : String) : Rejection → List String
  | .malformed _ =>
    [s!"Failed to parse nu-lint output: {String.ofList (output.toList.take maxLogged)}"]
  | .misfit m => [s!"nu-lint output does not match the {format.name} schema: {m.message}"]
  | _ => []

/-- The records of `file` in the output of a linter that lints it. -/
def groups (s : Session) (file : Path) (format : Format) (output : String) :
    Except Failure Groups := do
  let report ← Report.parse s.disk.room format output.toList
  orFault (report.groupedFor s.disk s.workspace (some file.parent) file)

/-- Ends the run for a file because of a failure. -/
def fail (s : Session) (file : Path) (notify : Bool) : Failure → Step (Progress Lint Outcome)
  | .lint e => ⟨s.leave file, Session.failureEvents file e notify, .ended (.ok .failed)⟩
  | .fault f => ⟨s.leave file, [], .ended (.error f)⟩

/-- Stores and publishes records by file. -/
def publish (s : Session) : Groups → Step (Except Fault Unit)
  | [] => ⟨s, [], .ok ()⟩
  | (file, records) :: rest =>
    match s.store.replace s.disk file records with
    | .error fault => ⟨s, [], .error fault⟩
    | .ok store =>
      let s := { s with store }
      match shownAll s.disk records file s.workspace with
      | .error fault => ⟨s, [], .error fault⟩
      | .ok diagnostics => (publish s rest).after [.publish file diagnostics]

/-- Ends a run that has found the given records. They are dropped when the session has been disposed
of in the meantime. -/
def finish (s : Session) (file : Path) (groups : Groups) : Step (Progress Lint Outcome) :=
  let s := s.leave file
  if s.disposed then ⟨s, [], .ended (.ok .skipped)⟩
  else
    let step := publish s groups
    ⟨step.session, step.events, .ended ((orFault step.value).map fun () => .completed)⟩

/-- Ends a run with the linter's reply. -/
def conclude (s : Session) (file : Path) (notify : Bool) (format : Format) :
    Reply → Step (Progress Lint Outcome)
  | .error failure => fail s file notify failure
  | .ok completed =>
    match groups s file format completed.stdout with
    | .ok groups => finish s file groups
    | .error failure =>
      let logged := match failure with
        | .lint (.rejected _ reason) => outputLog format completed.stdout reason
        | _ => []
      (fail s file notify failure).after (logged.map fun (entry : String) => .log entry)

/-- Calls the linter, now that the format is known. -/
def call (s : Session) (file : Path) (notify : Bool) (format : Format) :
    Step (Progress Lint Outcome) :=
  match Command.lint s.disk s.settings s.workspace file format with
  | .error fault => fail s file notify fault
  | .ok command =>
    let call := command.call s.settings
    ⟨s, [.call call], .waiting ⟨file, notify, .running format call⟩⟩

/-- Goes on with the run for a file after a step of its inquiry. -/
def informed (file : Path) (notify : Bool) (step : Step (Progress Inquiry (Option Version))) :
    Step (Progress Lint Outcome) :=
  match step.value with
  | .waiting inquiry => ⟨step.session, step.events, .waiting ⟨file, notify, .inquiring inquiry⟩⟩
  | .ended (.ok version) =>
    (call step.session file notify (Version.formatOf version)).after step.events
  | .ended (.error failure) => (fail step.session file notify failure).after step.events

/-- Begins the run for a file that has been let in. -/
def letIn (s : Session) (file : Path) (notify : Bool) : Step (Progress Lint Outcome) :=
  match s.pinned with
  | some format => call s file notify format
  | none => informed file notify (Inquiry.start s)

/-- Begins a request to lint a file. -/
def start (s : Session) (p : Path) (notify : Bool := true) : Step (Progress Lint Outcome) :=
  match s.disk.canonical p with
  | .error fault => ⟨s, [], .ended (.error fault)⟩
  | .ok file =>
    if !s.isActive || file.hasVcsPart then ⟨s, [], .ended (.ok .skipped)⟩
    else if s.inFlight.contains file then ⟨s, [], .ended (.ok .inFlight)⟩
    else letIn (s.enter file) file notify

/-- Goes on with a run: it is its turn, or the linter has replied. -/
def next (s : Session) (reply : Call → Reply) (lint : Lint) : Step (Progress Lint Outcome) :=
  match lint.stage with
  | .inquiring inquiry => informed lint.file lint.notify (Inquiry.next s reply inquiry)
  | .running format call => conclude s lint.file lint.notify format (reply call)

/-! ### How often a run goes on -/

/-- A bound on how often a lint run can go on. -/
def rank (lint : Lint) : Nat :=
  match lint.stage with
  | .inquiring inquiry => inquiry.rank + 1
  | .running .. => 1

/-- Every lint run that waits can go on. -/
theorem rank_pos (lint : Lint) : 0 < lint.rank := by
  unfold rank
  split <;> omega

/-- No lint run goes on more than three times. -/
theorem rank_le (lint : Lint) : lint.rank ≤ 3 := by
  unfold rank
  split
  next i _ => cases i <;> simp [Inquiry.rank]
  next => omega

@[simp] theorem value_fail (s : Session) (file : Path) (notify : Bool) (f : Failure) (lint : Lint) :
    (fail s file notify f).value ≠ .waiting lint := by
  cases f <;> simp [fail]

/-- A run that has called the linter can go on only once. -/
theorem rank_call {s : Session} {file : Path} {notify : Bool} {format : Format} {lint : Lint}
    (h : (call s file notify format).value = .waiting lint) : lint.rank = 1 := by
  unfold call at h
  split at h
  · simp at h
  · simp only [Progress.waiting.injEq] at h
    simp [← h, rank]

/-- A run that learns the version ranks as its inquiry does or as one that has called the linter. -/
theorem rank_informed {file : Path} {notify : Bool}
    {step : Step (Progress Inquiry (Option Version))} {lint : Lint}
    (h : (informed file notify step).value = .waiting lint) :
    lint.rank = 1 ∨ ∃ i, step.value = .waiting i ∧ lint.rank = i.rank + 1 := by
  unfold informed at h
  split at h
  next i hi =>
    simp only [Progress.waiting.injEq] at h
    exact .inr ⟨i, hi, by simp [← h, rank]⟩
  next => exact .inl (rank_call h)
  next => simp [Step.after] at h

/-- A run that ends with the linter's reply does not wait any more. -/
theorem value_conclude (s : Session) (file : Path) (notify : Bool) (format : Format) (r : Reply)
    (lint : Lint) : (conclude s file notify format r).value ≠ .waiting lint := by
  cases r with
  | error f => simp [conclude]
  | ok completed =>
    simp only [conclude]
    split
    · simp only [finish]
      split <;> simp
    · simp [Step.after]

/-- Every step of a lint run that does not end it lowers its rank. -/
theorem rank_next {s : Session} {reply : Call → Reply} {l l' : Lint}
    (h : (l.next s reply).value = .waiting l') : l'.rank < l.rank := by
  obtain ⟨file, notify, stage⟩ := l
  cases stage with
  | inquiring i =>
    rcases rank_informed h with h' | ⟨j, hj, h'⟩
    · have : 0 < i.rank := by cases i <;> simp [Inquiry.rank]
      have hr : rank ⟨file, notify, .inquiring i⟩ = i.rank + 1 := rfl
      omega
    · have := Inquiry.rank_next hj
      have hr : rank ⟨file, notify, .inquiring i⟩ = i.rank + 1 := rfl
      omega
  | running format call => exact absurd h (value_conclude s file notify format (reply call) l')

end Lint

end LintBridge
