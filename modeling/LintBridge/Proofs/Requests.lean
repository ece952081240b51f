import LintBridge.Proofs.Steps

/-!
# LintBridge.Proofs.Requests

The steps of all requests, put together from those of lint runs, fixes and sweeps.

Main results:

* `Session.quiet_request`: beginning a request stores and shows no records.
* `Run.goes_next`: what going on with a run does to the files in flight.
* `Run.quiet_next`: going on with a run is quiet unless a lint run finds records to store.
-/

namespace LintBridge

/-- The paths of the files that a request may turn to. -/
def Request.paths (s : Session) : Request → List Path
  | .lint file _ | .fixFile file => [file]
  | .lintDocument document | .opened document | .saved document | .changed document =>
    [document.path]
  | .sweep => Sweep.targets s
  | .fixText _ | .fixDocument _ | .version | .format => []

/-- What a run that waits has a stake in. -/
def Run.stake : Run → Stake
  | .inquiry i _ => i.stake
  | .lint l => l.stake
  | .sweep w => w.stake
  | .fix f => f.stake
  | .savedFix f document => { f.stake with paths := [document.path] }
  | .pause document => { paths := [document.path] }
  | .fixText call | .fixDocument _ _ call => { call := call }

/-- The lint run that a run waits for. -/
def Run.lint? : Run → Option Lint
  | .lint l => some l
  | .sweep w => some w.lint
  | _ => none

namespace Session

theorem quiet_lint (s : Session) (p : Path) (notify : Bool) :
    s.Quiet ⟨none, none, [p]⟩ (s.lint p notify).session (s.lint p notify).events
      ((s.lint p notify).value.stake Run.stake) := by
  have h := (Lint.quiet_start s p notify).1
  simp only [lint, Step.lift, Progress.stake_map]
  exact h

theorem quiet_answer (s : Session) (a : Answer) (call : Option Call) (paths : List Path) :
    s.Quiet ⟨none, call, paths⟩ (s.answer a).session (s.answer a).events
      ((s.answer a).value.stake Run.stake) :=
  quiet_notices s call paths (by simp [answer])

theorem quiet_lintDocument (s : Session) (document : Buffer) :
    s.Quiet ⟨none, none, [document.path]⟩ (s.lintDocument document).session
      (s.lintDocument document).events ((s.lintDocument document).value.stake Run.stake) := by
  unfold lintDocument
  split
  · exact quiet_lint s document.path true
  · exact quiet_answer s _ _ _

theorem quiet_lintSaved (s : Session) (document : Buffer) :
    s.Quiet ⟨none, none, [document.path]⟩ (s.lintSaved document).session
      (s.lintSaved document).events ((s.lintSaved document).value.stake Run.stake) := by
  unfold lintSaved
  split
  · exact quiet_lintDocument s document
  · exact quiet_answer s _ _ _

/-- A saved document goes on as its fix does, and is linted after that. -/
theorem quiet_savedAfter {s : Session} {own : Option Path} {call : Option Call}
    {document : Buffer} {step : Step (Progress FileFix Bool)}
    (h : s.Quiet ⟨own, call, [document.path]⟩ step.session step.events
      (step.value.stake FileFix.stake)) :
    s.Quiet ⟨own, call, [document.path]⟩ (savedAfter document step).session
      (savedAfter document step).events ((savedAfter document step).value.stake Run.stake) := by
  unfold savedAfter
  split
  next fix hv =>
    rw [hv] at h
    exact h.widen (List.Subset.refl _) (List.Subset.refl _)
  next hv =>
    rw [hv] at h
    exact h.trans (quiet_lintSaved step.session document) (List.Subset.refl _)
  next failure hv =>
    rw [hv] at h
    exact h

theorem quiet_saving (s : Session) (document : Buffer) :
    s.Quiet ⟨none, none, [document.path]⟩ (s.saving document).session (s.saving document).events
      ((s.saving document).value.stake Run.stake) := by
  unfold saving
  split
  · exact quiet_answer s _ _ _
  split
  · exact quiet_savedAfter (FileFix.quiet_start s document.path)
  · exact quiet_lintSaved s document

theorem quiet_inquire (s : Session) (wanted : Wanted) :
    s.Quiet {} (s.inquire wanted).session (s.inquire wanted).events
      ((s.inquire wanted).value.stake Run.stake) := by
  have h := (Inquiry.asks_start s).quiet none
  simp only [inquire, Step.lift, Progress.stake_map]
  exact h

/-- Beginning a request stores and shows no records. -/
theorem quiet_request (s : Session) (r : Request) :
    s.Quiet ⟨none, none, r.paths s⟩ (s.request r).session (s.request r).events
      ((s.request r).value.stake Run.stake) := by
  cases r with
  | lint file notify => exact quiet_lint s file notify
  | lintDocument document => exact quiet_lintDocument s document
  | opened document =>
    simp only [request, opening]
    split
    · exact quiet_lintDocument s document
    · exact quiet_answer s _ _ _
  | saved document => exact quiet_saving s document
  | changed document =>
    simp only [request, changing]
    split
    · exact quiet_free s none (List.Subset.refl _) rfl rfl (by simp [Event.isSilent])
    · exact quiet_answer s _ _ _
  | sweep =>
    have h := Sweep.quiet_start s
    simp only [request, Step.lift, Progress.stake_map]
    exact h
  | fixFile file =>
    have h := FileFix.quiet_start s file
    simp only [request, Step.lift, Progress.stake_map]
    exact h
  | fixText text =>
    simp only [request, fixText]
    exact quiet_free s none (List.nil_subset _) rfl rfl (by simp [Event.isSilent])
  | fixDocument name =>
    simp only [request, fixDocument]
    split
    · exact quiet_answer s _ _ _
    · exact quiet_free s none (List.nil_subset _) rfl rfl (by simp [Event.isSilent])
  | version => exact quiet_inquire s .version
  | format =>
    simp only [request, findFormat]
    split
    · exact quiet_answer s _ _ _
    · exact quiet_inquire s .format

end Session

namespace Run

open Session

variable {s : Session} {reply : Call → Reply} {run : Run}

/-- Only lint runs and sweeps may store records when they go on. -/
theorem quiet_of_lint?_eq_none (h : run.lint? = none) :
    s.Quiet run.stake (run.next s reply).session (run.next s reply).events
      ((run.next s reply).value.stake stake) := by
  cases run with
  | lint l => simp [lint?] at h
  | sweep w => simp [lint?] at h
  | inquiry i wanted =>
    have h := (Inquiry.asks_next s reply i).quiet i.call?
    simp only [next, Step.lift, Progress.stake_map]
    exact h
  | fix f =>
    have h := FileFix.quiet_next s reply f []
    simp only [next, Step.lift, Progress.stake_map]
    exact h
  | savedFix f document =>
    exact quiet_savedAfter (FileFix.quiet_next s reply f [document.path])
  | pause document => exact quiet_lintDocument s document
  | fixText call => exact quiet_notices s _ _ (by simp [next])
  | fixDocument name original call => exact quiet_notices s _ _ (by simp [next])

/-- Going on with a run is quiet unless a lint run finds records to store. -/
theorem quiet_next (hfile : ∀ f ∈ run.stake.file, f ∈ s.inFlight)
    (h : ∀ l ∈ run.lint?, l.found? s reply = none) :
    s.Quiet run.stake (run.next s reply).session (run.next s reply).events
      ((run.next s reply).value.stake stake) := by
  cases run with
  | lint l =>
    have h := (Lint.passes_next (hfile l.file rfl) (h l rfl)).1
    simp only [next, Step.lift, Progress.stake_map]
    exact h
  | sweep w =>
    have h := Sweep.quiet_next (hfile w.lint.file rfl) (h w.lint rfl)
    simp only [next, Step.lift, Progress.stake_map]
    exact h
  | _ => exact quiet_of_lint?_eq_none rfl

/-- What going on with a run does to the files in flight. -/
theorem goes_next (reply : Call → Reply) (hfile : ∀ f ∈ run.stake.file, f ∈ s.inFlight) :
    s.Goes run.stake (run.next s reply).session (run.next s reply).events
      ((run.next s reply).value.stake stake) := by
  cases run with
  | lint l =>
    have h := Lint.goes_next reply (hfile l.file rfl)
    simp only [next, Step.lift, Progress.stake_map]
    exact h
  | sweep w =>
    have h := Sweep.goes_next reply (hfile w.lint.file rfl)
    simp only [next, Step.lift, Progress.stake_map]
    exact h
  | _ => exact (quiet_of_lint?_eq_none rfl).toGoes

end Run

end LintBridge
