import LintBridge.Proofs.Steps

/-!
# LintBridge.Proofs.Carrying

Requests that are carried out while nothing else happens. `Settles` goes on after a step, run by run
of the linter, until the request has ended; it is the same for lint runs, for sweeps and for
requests of any kind (`Kind`), and `Session.perform` gets to where it gets
(`Settles.perform`). A request that does nothing but lint a file settles as its lint run does
(`Settles.lift`), and so does the part of a sweep that is about one file (`Settles.goOn`).

So the lint requests of a list and the sweep over it differ in what they make of the outcomes, but
not in the lint runs themselves. These are `Lints`; `Lints.performAll` and `Lints.through` say what
either makes of them.
-/

namespace LintBridge

variable {ρ ρ' α α' : Type}

/-! ### Going on to the end -/

@[simp] theorem Linter.after_zero (linter : Linter) : linter.after 0 = linter := by
  simp [Linter.after]

@[simp] theorem Linter.after_after (linter : Linter) (m n : Nat) :
    (linter.after m).after n = linter.after (m + n) := by
  simp [Linter.after, Nat.add_assoc]

/-- A kind of runs: how they go on, and which run of the linter they wait for. -/
structure Kind (ρ α : Type) where
  next : Session → (Call → Reply) → ρ → Step (Progress ρ α)
  call? : ρ → Option Call

def Lint.kind : Kind Lint Outcome := ⟨Lint.next, Lint.call?⟩

def Sweep.kind : Kind Sweep SweepReport := ⟨Sweep.next, fun sweep => sweep.lint.call?⟩

def Run.kind : Kind Run Answer := ⟨Run.next, Run.call?⟩

/-- Going on after a step ends with the step `last`, which has all events from the first one on, and
leaves the linter as `linter'`. -/
inductive Settles (kind : Kind ρ α) :
    Linter → Step (Progress ρ α) → Step (Except Failure α) → Linter → Prop where
  | ended {linter : Linter} {step : Step (Progress ρ α)} {result : Except Failure α}
      (h : step.value = .ended result) :
      Settles kind linter step ⟨step.session, step.events, result⟩ linter
  | waiting {linter linter' : Linter} {step : Step (Progress ρ α)} {run : ρ}
      {last : Step (Except Failure α)} (h : step.value = .waiting run)
      (rest : Settles kind (linter.after (kind.call? run).toList.length)
        (kind.next step.session (linter.reply 0) run) last linter') :
      Settles kind linter step (last.after step.events) linter'

namespace Step

theorem after_after {β : Type} (step : Step β) (earlier events : List Event) :
    (step.after events).after earlier = step.after (earlier ++ events) := by
  simp [Step.after]

/-- The step with its result converted. -/
def answered (answer : α → α') (step : Step (Except Failure α)) : Step (Except Failure α') :=
  { step with value := step.value.map answer }

end Step

namespace Settles

variable {kind : Kind ρ α} {kind' : Kind ρ' α'} {linter linter' : Linter}
  {step : Step (Progress ρ α)} {last : Step (Except Failure α)}

/-- A run that waits goes on to where its next step settles. -/
theorem wait {s t : Session} {run : ρ} {events later : List Event} {result : Except Failure α}
    (rest : Settles kind (linter.after (kind.call? run).toList.length)
      (kind.next s (linter.reply 0) run) ⟨t, later, result⟩ linter') :
    Settles kind linter ⟨s, events, .waiting run⟩ ⟨t, events ++ later, result⟩ linter' := by
  have hvalue : (⟨s, events, .waiting run⟩ : Step (Progress ρ α)).value = .waiting run := rfl
  exact waiting hvalue rest

/-- Events that come first come first at the end. -/
theorem after (h : Settles kind linter step last linter') (earlier : List Event) :
    Settles kind linter (step.after earlier) (last.after earlier) linter' := by
  cases h with
  | ended h =>
    have hvalue : (step.after earlier).value = _ := h
    exact .ended hvalue
  | waiting h rest =>
    have hvalue : (step.after earlier).value = _ := h
    rw [Step.after_after]
    exact .waiting hvalue rest

end Settles

/-! ### Requests of any kind -/

namespace Run

theorem completeIn_eq {linter : Linter} {s : Session} {run : Run} (m n : Nat) (hm : run.rank ≤ m)
    (hn : run.rank ≤ n) : completeIn linter m s run hm = completeIn linter n s run hn := by
  induction m generalizing n linter s run with
  | zero => exact absurd run.rank_pos (by omega)
  | succ m ih =>
    cases n with
    | zero => exact absurd run.rank_pos (by omega)
    | succ n =>
      simp only [completeIn]
      split
      · rfl
      · rw [ih]

end Run

namespace Session

/-- Goes on after a step of a request to its end. -/
def carry (linter : Linter) (step : Step (Progress Run Answer)) : Step (Except Failure Answer) :=
  match step.value with
  | .ended result => ⟨step.session, step.events, result⟩
  | .waiting run => (run.complete step.session linter).after step.events

theorem complete_eq_carry (s : Session) (linter : Linter) (run : Run) : run.complete s linter =
    carry (linter.after run.call?.toList.length) (run.next s (linter.reply 0)) := by
  have hmore : run.complete s linter =
      Run.completeIn linter (run.rank + 1) s run (Nat.le_succ _) :=
    Run.completeIn_eq _ _ _ _
  rw [hmore]
  simp only [Run.completeIn, carry]
  split
  next hv => simp only [hv]
  next run' hv =>
    simp only [hv, Run.complete]
    rw [Run.completeIn_eq]

end Session

/-- A request is carried out to where it settles. -/
theorem Settles.carry_eq {linter linter' : Linter} {step : Step (Progress Run Answer)}
    {last : Step (Except Failure Answer)} (h : Settles Run.kind linter step last linter') :
    Session.carry linter step = last := by
  induction h with
  | ended h => simp only [Session.carry, h]
  | waiting h _ ih =>
    unfold Session.carry
    rw [h]
    dsimp only
    rw [Session.complete_eq_carry]
    exact congrArg (Step.after _) ih

theorem Settles.perform {linter linter' : Linter} {s : Session} {r : Request}
    {last : Step (Except Failure Answer)} (h : Settles Run.kind linter (s.request r) last linter') :
    s.perform linter r = last :=
  h.carry_eq

/-- A request that is carried out by a run of some kind settles as that run does. -/
theorem Settles.lift {kind : Kind ρ α} {linter linter' : Linter} {step : Step (Progress ρ α)}
    {last : Step (Except Failure α)} {answer : α → Answer} {run : ρ → Run}
    (hnext : ∀ s reply x, Run.next s reply (run x) = (kind.next s reply x).lift answer run)
    (hcall : ∀ x, (run x).call? = kind.call? x) (h : Settles kind linter step last linter') :
    Settles Run.kind linter (step.lift answer run) (last.answered answer) linter' := by
  induction h with
  | @ended _ step result h =>
    have hvalue : (step.lift answer run).value = .ended (result.map answer) := by
      simp [Step.lift, Progress.map, h]
    exact .ended hvalue
  | @waiting _ _ step x last h _ ih =>
    have hvalue : (step.lift answer run).value = .waiting (run x) := by
      simp [Step.lift, Progress.map, h]
    rw [← hnext, ← hcall] at ih
    exact .waiting hvalue ih

/-- A request to lint a file settles as its lint run does. -/
theorem Settles.request {linter linter' : Linter} {s : Session} {p : Path} (notify : Bool)
    {last : Step (Except Failure Outcome)}
    (h : Settles Lint.kind linter (Lint.start s p notify) last linter') :
    Settles Run.kind linter (s.request (.lint p notify)) (last.answered .outcome) linter' :=
  h.lift (fun _ _ _ => rfl) fun _ => rfl

/-- A request for a sweep settles as the sweep does. -/
theorem Settles.requestSweep {linter linter' : Linter} {s : Session}
    {last : Step (Except Failure SweepReport)}
    (h : Settles Sweep.kind linter (Sweep.start s) last linter') :
    Settles Run.kind linter (s.request .sweep) (last.answered .swept) linter' :=
  h.lift (fun _ _ _ => rfl) fun _ => rfl

/-! ### Sweeps -/

namespace Sweep

/-- Goes on with a sweep after a step of the run for one of its files. -/
def goOn (report : SweepReport) (file : Path) (rest : List Path)
    (step : Step (Progress Lint Outcome)) : Step (Progress Sweep SweepReport) :=
  match step.value with
  | .waiting lint => ⟨step.session, step.events, .waiting ⟨lint, file, rest, report⟩⟩
  | .ended (.error failure) => ⟨step.session, step.events, .ended (.error failure)⟩
  | .ended (.ok outcome) =>
    (through step.session (report.add file outcome) rest).after step.events

theorem through_cons (s : Session) (report : SweepReport) (file : Path) (rest : List Path) :
    through s report (file :: rest) = goOn report file rest (Lint.start s file false) :=
  rfl

theorem next_eq_goOn (s : Session) (reply : Call → Reply) (sweep : Sweep) :
    sweep.next s reply =
      goOn sweep.report sweep.current sweep.rest (Lint.next s reply sweep.lint) :=
  rfl

end Sweep

/-- A sweep goes on with the outcome that the run for one file settles with. -/
theorem Settles.goOn {linter linter' linter'' : Linter} {step : Step (Progress Lint Outcome)}
    {s : Session} {events : List Event} {result : Except Failure Outcome} {report : SweepReport}
    {file : Path} {rest : List Path} {last : Step (Except Failure SweepReport)}
    (h : Settles Lint.kind linter step ⟨s, events, result⟩ linter')
    (hrest : Settles Sweep.kind linter' (Sweep.goOn report file rest ⟨s, [], .ended result⟩) last
      linter'') :
    Settles Sweep.kind linter (Sweep.goOn report file rest step) (last.after events) linter'' := by
  generalize hfirst : (⟨s, events, result⟩ : Step (Except Failure Outcome)) = first at h
  induction h generalizing events with
  | @ended _ step value h =>
    obtain ⟨rfl, rfl, rfl⟩ := Step.mk.inj hfirst
    have hended : Sweep.goOn report file rest step =
        (Sweep.goOn report file rest ⟨step.session, [], .ended result⟩).after step.events := by
      cases result <;> simp [Sweep.goOn, h, Step.after]
    rw [hended]
    exact hrest.after step.events
  | @waiting before _ step lint first h _ ih =>
    obtain ⟨t, later, value⟩ := first
    obtain ⟨rfl, rfl, rfl⟩ : s = t ∧ events = step.events ++ later ∧ result = value := by
      simpa [Step.after] using hfirst
    have hgoes := ih hrest rfl
    have hvalue :
        (Sweep.goOn report file rest step).value = .waiting ⟨lint, file, rest, report⟩ := by
      simp [Sweep.goOn, h]
    have hsession : (Sweep.goOn report file rest step).session = step.session := by
      simp [Sweep.goOn, h]
    have hevents : (Sweep.goOn report file rest step).events = step.events := by
      simp [Sweep.goOn, h]
    rw [← Step.after_after, ← hevents]
    refine .waiting hvalue ?_
    rw [hsession]
    have hnext : Sweep.kind.next step.session (before.reply 0) ⟨lint, file, rest, report⟩ =
        Sweep.goOn report file rest (Lint.next step.session (before.reply 0) lint) :=
      Sweep.next_eq_goOn _ _ _
    rw [hnext]
    exact hgoes

/-! ### Files linted one after another -/

/-- Linting the paths one after another, each when the one before has ended, gets from the session
`s` to `t` with the given events and outcomes. -/
inductive Lints (notify : Bool) :
    Linter → Session → List Path → Session → List Event → List Outcome → Prop where
  | nil {linter : Linter} {s : Session} : Lints notify linter s [] s [] []
  | cons {linter : Linter} {s t u : Session} {p : Path} {rest : List Path}
      {events events' : List Event} {outcome : Outcome} {outcomes : List Outcome}
      (first : Settles Lint.kind linter (Lint.start s p notify) ⟨t, events, .ok outcome⟩
        (linter.after (events.filterMap Event.call?).length))
      (others : Lints notify (linter.after (events.filterMap Event.call?).length) t rest u events'
        outcomes) :
      Lints notify linter s (p :: rest) u (events ++ events') (outcome :: outcomes)

namespace Lints

variable {linter : Linter} {s t : Session} {paths : List Path} {events : List Event}
  {outcomes : List Outcome}

/-- Requests to lint files are carried out by linting them one after another. -/
theorem performAll (h : Lints true linter s paths t events outcomes) :
    s.performAll linter (paths.map fun p => .lint p) =
      ⟨t, events, .ok (outcomes.map .outcome)⟩ := by
  induction h with
  | nil => rfl
  | cons first others ih =>
    have hperform := Settles.perform (first.request true)
    simp only [List.map_cons, Session.performAll, hperform, Step.answered, Except.map, ih,
      Step.after]

/-- A sweep lints its files one after another and reports the outcomes. -/
theorem through (h : Lints false linter s paths t events outcomes) (report : SweepReport) :
    let final := (paths.zip outcomes).foldl (fun report e => report.add e.1 e.2) report
    ∃ linter', Settles Sweep.kind linter (Sweep.through s report paths)
      ⟨t, events ++ [.showInfo final.message], .ok final⟩ linter' := by
  induction h generalizing report with
  | nil => exact ⟨_, .ended rfl⟩
  | @cons _ _ _ _ p _ events _ outcome _ first others ih =>
    obtain ⟨linter', hrest⟩ := ih (report.add p outcome)
    refine ⟨linter', ?_⟩
    rw [Sweep.through_cons, List.append_assoc]
    exact first.goOn hrest

end Lints

end LintBridge
