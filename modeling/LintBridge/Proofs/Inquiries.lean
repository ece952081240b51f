import LintBridge.Proofs.Requests

/-!
# LintBridge.Proofs.Inquiries

What one step of a request does about the linter's version, said once for all kinds of requests. A
run that is left waiting has a `Wait`: for its turn, for the version, for a report in some format,
or for something that the version does not matter to. `Negotiation.Turns` lists what a step can do
to the negotiation: it leaves the answer alone, it begins to ask, or it settles or abandons the
question that it has asked. `Session.Inquires` adds that the run left waiting waits for the right
thing: whoever reads a report reads it in the format in use (`Session.inUse?`).

Main results:

* `Session.handles_request`, `Run.handles_next`: every step of every request is of this kind, and a
  request for the version or the format is answered with the one that is kept.
-/

namespace LintBridge

/-! ### Runs of the linter -/

namespace Call

/-- Whether a run of the linter asks for its version. -/
def asksVersion (call : Call) : Bool :=
  call.args == [("--version" : Spelling)]

/-- Whether a run of the linter fixes a file or a text. -/
def fixes (call : Call) : Bool :=
  call.args.head? == some "--fix"

/-- The run lints some file of the session, and reports in the given format. -/
def Lints (s : Session) (format : Format) (call : Call) : Prop :=
  ∃ file command, Command.lint s.disk s.settings s.workspace file format = .ok command ∧
    call = command.call s.settings

variable {s t : Session} {format : Format} {call : Call}

theorem asksVersion_of_fixes (h : call.fixes = true) : call.asksVersion = false := by
  unfold fixes at h
  unfold asksVersion
  cases hargs : call.args with
  | nil => rfl
  | cons first rest =>
    rw [hargs] at h
    obtain rfl : first = "--fix" := by simpa using h
    rfl

/-- A run that lints begins by saying in which format it is to report. -/
theorem Lints.args (h : call.Lints s format) :
    (["-f", format.name] : List Spelling) <+: call.args := by
  obtain ⟨file, command, hcommand, rfl⟩ := h
  obtain ⟨at_, -, hcommand⟩ := bind_eq_ok.1 hcommand
  rw [← Except.ok.inj hcommand]
  exact ⟨Command.configArgs s.settings none ++ [at_.target], by simp [Command.call]⟩

theorem asksVersion_of_lints (h : call.Lints s format) : call.asksVersion = false := by
  obtain ⟨rest, hargs⟩ := h.args
  unfold asksVersion
  rw [← hargs]
  rfl

theorem lints_ground (hground : s.SameGround t) : call.Lints t format ↔ call.Lints s format := by
  unfold Lints
  rw [hground.disk, hground.settings, hground.workspace]

end Call

/-- The report format in use, as far as it is known. -/
def Session.inUse? (s : Session) : Option Format :=
  s.pinned.or (s.negotiation.known.map Version.formatOf)

/-! ### What is waited for -/

/-- What a run waits for, as far as the linter's version is concerned. -/
inductive Wait where
  /-- Something else, perhaps a run of the linter that does not depend on the version. -/
  | other (call : Option Call)
  /-- Its turn to ask for the version. -/
  | turn
  /-- The version. -/
  | version (call : Call)
  /-- A report. -/
  | report (format : Format) (call : Call)

namespace Wait

/-- The run of the linter that is waited for. -/
def call? : Wait → Option Call
  | other call => call
  | turn => none
  | version call | report _ call => some call

/-- Whether the linter has been asked for its version. -/
def asks : Wait → Bool
  | version _ => true
  | _ => false

/-- What is waited for is right in the session. When a format is pinned, nobody asks for the version
but a `direct` request for it. -/
def Proper (s : Session) (direct : Prop) : Wait → Prop
  | other call => ∀ c ∈ call, c.fixes
  | turn => direct ∨ s.pinned = none
  | version call => call = .forVersion s.settings ∧ (direct ∨ s.pinned = none)
  | report format call => s.inUse? = some format ∧ call.Lints s format

variable {s : Session} {direct : Prop} {w : Wait} {c : Call}

/-- Only the linter's answer to the question for its version is waited for as such. -/
theorem Proper.asksVersion (h : w.Proper s direct) (hc : w.call? = some c) :
    c.asksVersion = w.asks := by
  cases w with
  | other call => exact Call.asksVersion_of_fixes (h c hc)
  | turn => simp [call?] at hc
  | version call =>
    obtain rfl : call = c := Option.some.inj hc
    rw [h.1]
    rfl
  | report format call =>
    obtain rfl : call = c := Option.some.inj hc
    exact Call.asksVersion_of_lints h.2

theorem Proper.countP_call? (h : w.Proper s direct) :
    w.call?.toList.countP Call.asksVersion = w.asks.toNat := by
  cases hc : w.call? with
  | some c =>
    rw [← h.asksVersion hc, Option.toList_some, List.countP_singleton]
    cases c.asksVersion <;> rfl
  | none =>
    cases w with
    | version call => simp [call?] at hc
    | report format call => simp [call?] at hc
    | _ => rfl

end Wait

/-- What an inquiry waits for. -/
def Inquiry.wait : Inquiry → Wait
  | queueing => .turn
  | asking call => .version call

/-- What a lint run waits for. -/
def Lint.wait (lint : Lint) : Wait :=
  match lint.stage with
  | .inquiring inquiry => inquiry.wait
  | .running format call => .report format call

/-- What a run waits for. -/
def Run.wait : Run → Wait
  | .inquiry i _ => i.wait
  | .lint l => l.wait
  | .sweep w => w.lint.wait
  | .fix f | .savedFix f _ => .other (some f.call)
  | .pause _ => .other none
  | .fixText call | .fixDocument _ _ call => .other (some call)

/-- What is waited for once a step has been made. -/
def Progress.wait {ρ α : Type} (waitOf : ρ → Wait) : Progress ρ α → Wait
  | ended _ => .other none
  | waiting run => waitOf run

theorem Run.call?_wait (run : Run) : run.wait.call? = run.call? := by
  have hinquiry (i : Inquiry) : i.wait.call? = i.call? := by cases i <;> rfl
  have hlint (l : Lint) : l.wait.call? = l.call? := by
    obtain ⟨file, notify, stage⟩ := l
    cases stage with
    | inquiring i => exact hinquiry i
    | running format call => rfl
  cases run with
  | inquiry i wanted => exact hinquiry i
  | lint l => exact hlint l
  | sweep w => exact hlint w.lint
  | _ => rfl

theorem Run.wait_of_lint? {run : Run} {lint : Lint} (h : lint ∈ run.lint?) :
    run.wait = lint.wait := by
  cases run with
  | lint l =>
    obtain rfl : l = lint := Option.some.inj h
    rfl
  | sweep w =>
    obtain rfl : w.lint = lint := Option.some.inj h
    rfl
  | _ => simp [lint?] at h

/-! ### What becomes of the negotiation -/

/-- What a step of a run can do to the negotiation. The run has been `asking` before the step or
not, and so it is after the step; `answer` is what the reply to its question says. -/
inductive Negotiation.Turns (answer : Except Fault (Option Version)) :
    Negotiation → Bool → Negotiation → Bool → Prop where
  /-- The run does not ask; it may come into the queue or leave it. -/
  | passes {n n' : Negotiation} (held : n'.held = n.held) (known : n'.known = n.known) :
      Turns answer n false n' false
  /-- The run begins to ask. -/
  | begins {n n' : Negotiation} (free : n.held = false) (unknown : n.known = none)
      (held : n'.held = true) (known : n'.known = none) : Turns answer n false n' true
  /-- The run has learnt the version. -/
  | settles {n n' : Negotiation} {version : Option Version} (told : answer = .ok version)
      (held : n'.held = false) (known : n'.known = some version) : Turns answer n true n' false
  /-- The run has met a fault. -/
  | abandons {n n' : Negotiation} {fault : Fault} (told : answer = .error fault)
      (held : n'.held = false) (known : n'.known = n.known) : Turns answer n true n' false

namespace Session

variable {s t u : Session} {answer : Except Fault (Option Version)} {asking : Bool} {direct : Prop}
  {a b : Wait}

/-- What a step of a run, which has been `asking` or not, does about the version. -/
structure Inquires (s : Session) (answer : Except Fault (Option Version)) (asking : Bool)
    (direct : Prop) (t : Session) (b : Wait) : Prop where
  ground : s.SameGround t
  turns : Negotiation.Turns answer s.negotiation asking t.negotiation b.asks
  proper : b.Proper t direct

/-- A step that does not touch the negotiation, and leaves no run that asks for the version. -/
structure Aside (s : Session) (direct : Prop) (t : Session) (b : Wait) : Prop where
  ground : s.SameGround t
  negotiation : t.negotiation = s.negotiation
  asks : b.asks = false
  proper : b.Proper t direct

theorem Aside.inquires (h : s.Aside direct t b) : s.Inquires answer false direct t b := by
  refine ⟨h.ground, ?_, h.proper⟩
  rw [h.negotiation, h.asks]
  exact .passes rfl rfl

/-- A step that ends a request without touching the negotiation. -/
theorem aside_end (hground : s.SameGround t) (hn : t.negotiation = s.negotiation) :
    s.Aside direct t (.other none) :=
  ⟨hground, hn, rfl, by simp [Wait.Proper]⟩

/-- The step goes on without touching the negotiation any more. -/
theorem Inquires.aside (h : s.Inquires answer asking direct t (.other none))
    (h' : t.Aside direct u b) : s.Inquires answer asking direct u b := by
  refine ⟨h.ground.trans h'.ground, ?_, h'.proper⟩
  rw [h'.negotiation, h'.asks]
  exact h.turns

/-- The step goes on, having passed over the negotiation so far. -/
theorem Inquires.trans (h : s.Inquires answer false direct t (.other none))
    (h' : t.Inquires answer false direct u b) : s.Inquires answer false direct u b := by
  refine ⟨h.ground.trans h'.ground, ?_, h'.proper⟩
  obtain ⟨held, known⟩ : t.negotiation.held = s.negotiation.held ∧
      t.negotiation.known = s.negotiation.known := by
    cases h.turns with
    | passes held known => exact ⟨held, known⟩
  have hturns := h'.turns
  revert hturns
  generalize b.asks = asks
  intro hturns
  cases hturns with
  | passes held' known' => exact .passes (held'.trans held) (known'.trans known)
  | begins free unknown held' known' =>
    exact .begins (held ▸ free) (known ▸ unknown) held' known'

end Session

/-! ### Inquiries -/

namespace Inquiry

variable {s : Session} {answer : Except Fault (Option Version)} {asking : Bool} {direct : Prop}
  {i : Inquiry}

/-- What a step of an inquiry does: an inquiry that ends has learnt the version that is kept, unless
the linter's answer makes a fault come up. -/
structure Learns (s : Session) (answer : Except Fault (Option Version)) (asking : Bool)
    (direct : Prop) (step : Step (Progress Inquiry (Option Version))) : Prop where
  inquires : s.Inquires answer asking direct step.session (step.value.wait wait)
  learnt : ∀ version, step.value = .ended (.ok version) →
    step.session.negotiation.known = some version
  failed : ∀ failure, step.value = .ended (.error failure) →
    ∃ fault, answer = .error fault ∧ failure = .fault fault

/-- Whoever has a turn is answered or asks. The queue `n` does not matter to that. -/
theorem learns_serve {n : Negotiation} (hfree : s.negotiation.held = false)
    (hheld : n.held = s.negotiation.held) (hknown : n.known = s.negotiation.known)
    (hdirect : direct ∨ s.pinned = none) : Learns s answer false direct (admitted s n.serve) := by
  unfold Negotiation.serve
  split
  next version hv =>
    refine ⟨⟨⟨rfl, rfl, rfl, rfl, rfl⟩, .passes hheld hknown, by simp [admitted, Progress.wait,
      Wait.Proper]⟩, fun version' h => ?_, fun failure h => ?_⟩
    · obtain rfl : version = version' := by simpa [admitted] using h
      exact hv
    · simp [admitted] at h
  next hv =>
    refine ⟨⟨⟨rfl, rfl, rfl, rfl, rfl⟩, .begins hfree (hknown ▸ hv) rfl hv, rfl, hdirect⟩, ?_, ?_⟩
    · intro version h
      simp [admitted] at h
    · intro failure h
      simp [admitted] at h

theorem learns_start (hdirect : direct ∨ s.pinned = none) :
    Learns s answer false direct (start s) := by
  unfold start Negotiation.arrive
  split
  next hfree =>
    simp only [Negotiation.isFree, Bool.and_eq_true, Bool.not_eq_true'] at hfree
    exact learns_serve hfree.1 rfl rfl hdirect
  next =>
    refine ⟨⟨⟨rfl, rfl, rfl, rfl, rfl⟩, .passes rfl rfl, hdirect⟩, ?_, ?_⟩
    · intro version h
      simp [admitted] at h
    · intro failure h
      simp [admitted] at h

theorem direct_or_unpinned (h : i.wait.Proper s direct) : direct ∨ s.pinned = none := by
  cases i with
  | queueing => exact h
  | asking call => exact h.2

theorem learns_next {reply : Call → Reply} (hproper : i.wait.Proper s direct)
    (hfree : i = .queueing → s.negotiation.isFree = true) :
    Learns s (Version.ofReply (reply (.forVersion s.settings))) i.wait.asks direct
      (i.next s reply) := by
  cases i with
  | queueing =>
    have hheld : s.negotiation.held = false := by simpa [Negotiation.isFree] using hfree rfl
    exact learns_serve hheld rfl rfl hproper
  | asking call =>
    obtain ⟨rfl, -⟩ := hproper
    unfold next
    dsimp only
    split
    next version hv =>
      refine ⟨⟨⟨rfl, rfl, rfl, rfl, rfl⟩, .settles hv rfl rfl, by simp [Progress.wait,
        Wait.Proper]⟩, fun version' h => ?_, fun failure h => ?_⟩
      · obtain rfl : version = version' := by simpa using h
        rfl
      · simp at h
    next fault hv =>
      refine ⟨⟨⟨rfl, rfl, rfl, rfl, rfl⟩, .abandons hv rfl rfl, by simp [Progress.wait,
        Wait.Proper]⟩, fun version h => ?_, fun failure h => ?_⟩
      · simp at h
      · exact ⟨fault, hv, by simpa [eq_comm] using h⟩

end Inquiry

/-! ### Lint runs -/

namespace Lint

open Session

variable {s : Session} {answer : Except Fault (Option Version)} {asking : Bool} {direct : Prop}
  {file : Path} {notify : Bool} {format : Format} {reply : Call → Reply} {lint : Lint}

theorem aside_fail (s : Session) (file : Path) (notify : Bool) (failure : Failure) :
    s.Aside direct (fail s file notify failure).session
      ((fail s file notify failure).value.wait wait) := by
  cases failure with
  | lint e => exact aside_end ⟨rfl, rfl, rfl, rfl, rfl⟩ rfl
  | fault f => exact aside_end ⟨rfl, rfl, rfl, rfl, rfl⟩ rfl

theorem aside_call (h : s.inUse? = some format) (file : Path) (notify : Bool) :
    s.Aside direct (call s file notify format).session
      ((call s file notify format).value.wait wait) := by
  unfold call
  split
  · exact aside_fail s file notify _
  next command hcommand => exact ⟨.refl s, rfl, rfl, h, file, command, hcommand, rfl⟩

/-- A run that learns the version calls the linter in the format that goes with it. -/
theorem inquires_informed {step : Step (Progress Inquiry (Option Version))}
    (h : Inquiry.Learns s answer asking direct step) (hpinned : s.pinned = none) (file : Path)
    (notify : Bool) : s.Inquires answer asking direct (informed file notify step).session
      ((informed file notify step).value.wait wait) := by
  have hinquires := h.inquires
  unfold informed
  split
  next inquiry hv =>
    rw [hv] at hinquires
    exact hinquires
  next version hv =>
    have huse : step.session.inUse? = some (Version.formatOf version) := by
      simp [inUse?, hinquires.ground.pinned, hpinned, h.learnt version hv]
    rw [hv] at hinquires
    exact hinquires.aside (aside_call huse file notify)
  next failure hv =>
    rw [hv] at hinquires
    exact hinquires.aside (aside_fail step.session file notify failure)

theorem inquires_letIn (s : Session) (file : Path) (notify : Bool) :
    s.Inquires answer false direct (letIn s file notify).session
      ((letIn s file notify).value.wait wait) := by
  unfold letIn
  split
  next format hpinned =>
    have huse : s.inUse? = some format := by simp [inUse?, hpinned]
    exact (aside_call huse file notify).inquires
  next hpinned =>
    exact inquires_informed (Inquiry.learns_start (.inr hpinned)) hpinned file notify

theorem inquires_start (s : Session) (p : Path) (notify : Bool) :
    s.Inquires answer false direct (start s p notify).session
      ((start s p notify).value.wait wait) := by
  unfold start
  split
  · exact (aside_end (.refl s) rfl).inquires
  next file _ =>
    split
    · exact (aside_end (.refl s) rfl).inquires
    split
    · exact (aside_end (.refl s) rfl).inquires
    · have hentered : s.Aside direct (s.enter file) (.other none) :=
        aside_end ⟨rfl, rfl, rfl, rfl, rfl⟩ rfl
      exact hentered.inquires.trans (inquires_letIn (s.enter file) file notify)

/-- Storing and publishing records is not about the version. -/
theorem aside_finish (s : Session) (file : Path) (found : Groups) :
    s.Aside direct (finish s file found).session ((finish s file found).value.wait wait) := by
  unfold finish
  dsimp only
  split
  · exact aside_end ⟨rfl, rfl, rfl, rfl, rfl⟩ rfl
  · obtain ⟨⟨store, hstore⟩, -⟩ := publish_spec (s.leave file) found
    rw [hstore]
    exact aside_end ⟨rfl, rfl, rfl, rfl, rfl⟩ rfl

theorem aside_conclude (s : Session) (file : Path) (notify : Bool) (format : Format)
    (r : Reply) : s.Aside direct (conclude s file notify format r).session
      ((conclude s file notify format r).value.wait wait) := by
  cases r with
  | error failure => exact aside_fail s file notify failure
  | ok completed =>
    unfold conclude
    dsimp only
    split
    · exact aside_finish s file _
    next failure _ => exact aside_fail s file notify failure

theorem inquires_next (reply : Call → Reply) (hdirect : ¬ direct)
    (hproper : lint.wait.Proper s direct)
    (hfree : lint.isQueueing = true → s.negotiation.isFree = true) :
    s.Inquires (Version.ofReply (reply (.forVersion s.settings))) lint.wait.asks direct
      (lint.next s reply).session ((lint.next s reply).value.wait wait) := by
  obtain ⟨file, notify, stage⟩ := lint
  cases stage with
  | running format call => exact (aside_conclude s file notify format (reply call)).inquires
  | inquiring i =>
    have hqueueing : i = .queueing → s.negotiation.isFree = true := by
      rintro rfl
      exact hfree rfl
    have hpinned := (Inquiry.direct_or_unpinned hproper).resolve_left hdirect
    exact inquires_informed (Inquiry.learns_next hproper hqueueing) hpinned file notify

theorem value_call (s : Session) (file : Path) (notify : Bool) (format : Format)
    (outcome : Outcome) : (call s file notify format).value ≠ .ended (.ok outcome) := by
  unfold call
  split
  · simp [fail]
  · simp

/-- A run that has asked for the version has no outcome yet when it learns it. -/
theorem value_next_asking (h : lint.wait.asks = true) (outcome : Outcome) :
    (lint.next s reply).value ≠ .ended (.ok outcome) := by
  obtain ⟨file, notify, stage⟩ := lint
  cases stage with
  | running format call => simp [wait, Wait.asks] at h
  | inquiring i =>
    cases i with
    | queueing => simp [wait, Inquiry.wait, Wait.asks] at h
    | asking call =>
      unfold next Inquiry.next
      dsimp only
      split
      · exact value_call _ _ _ _ outcome
      · simp [informed, fail]

end Lint

/-! ### Fixes of files -/

namespace FileFix

open Session

variable {s : Session} {direct : Prop}

/-- What a fix waits for. -/
def wait (fix : FileFix) : Wait :=
  .other (some fix.call)

theorem aside_start (s : Session) (p : Path) :
    s.Aside direct (start s p).session ((start s p).value.wait wait) := by
  unfold start
  split
  · exact aside_end (.refl s) rfl
  next file _ =>
    split
    · exact aside_end (.refl s) rfl
    split
    · exact aside_end (.refl s) rfl
    next command hcommand =>
      obtain ⟨at_, -, hcommand⟩ := bind_eq_ok.1 hcommand
      have hfixes : (command.call s.settings).fixes = true := by
        rw [← Except.ok.inj hcommand]
        rfl
      exact ⟨⟨rfl, rfl, rfl, rfl, rfl⟩, rfl, rfl, by simpa [Progress.wait, wait, Wait.Proper]⟩

theorem aside_next (s : Session) (reply : Call → Reply) (fix : FileFix) :
    s.Aside direct (fix.next s reply).session ((fix.next s reply).value.wait wait) := by
  unfold next
  dsimp only
  split <;> exact aside_end ⟨rfl, rfl, rfl, rfl, rfl⟩ rfl

end FileFix

/-! ### Sweeps -/

namespace Sweep

open Session

variable {s : Session} {answer : Except Fault (Option Version)} {direct : Prop}
  {reply : Call → Reply} {sweep : Sweep}

/-- What a sweep waits for. -/
def wait (sweep : Sweep) : Wait :=
  sweep.lint.wait

/-- The induction is on the files that are still to come. None of the runs that end at once has
touched the negotiation. -/
theorem inquires_through (s : Session) (report : SweepReport) (files : List Path) :
    s.Inquires answer false direct (through s report files).session
      ((through s report files).value.wait wait) := by
  induction files generalizing s report with
  | nil => exact (aside_end (.refl s) rfl).inquires
  | cons file rest ih =>
    have hlint : s.Inquires answer false direct (Lint.start s file false).session
        ((Lint.start s file false).value.wait Lint.wait) := Lint.inquires_start s file false
    unfold through
    dsimp only
    split
    next lint hv =>
      rw [hv] at hlint
      exact hlint
    next failure hv =>
      rw [hv] at hlint
      exact hlint
    next outcome hv =>
      rw [hv] at hlint
      exact hlint.trans (ih (Lint.start s file false).session (report.add file outcome))

theorem inquires_start (s : Session) :
    s.Inquires answer false direct (start s).session ((start s).value.wait wait) := by
  unfold start
  split
  · exact (aside_end (.refl s) rfl).inquires
  split
  · exact (aside_end (.refl s) rfl).inquires
  next root _ =>
    split
    · exact (aside_end (.refl s) rfl).inquires
    · exact (aside_end (.refl s) rfl).inquires
    next all _ _ => exact inquires_through s {} all

theorem inquires_next (reply : Call → Reply) (hdirect : ¬ direct)
    (hproper : sweep.wait.Proper s direct)
    (hfree : sweep.lint.isQueueing = true → s.negotiation.isFree = true) :
    s.Inquires (Version.ofReply (reply (.forVersion s.settings))) sweep.wait.asks direct
      (sweep.next s reply).session ((sweep.next s reply).value.wait wait) := by
  have hlint := Lint.inquires_next reply hdirect hproper hfree
  unfold next
  dsimp only
  split
  next lint hv =>
    rw [hv] at hlint
    exact hlint
  next failure hv =>
    rw [hv] at hlint
    exact hlint
  next outcome hv =>
    -- the run for the file has ended with an outcome, so it was not the one that asked
    have hasks : sweep.lint.wait.asks = false :=
      Bool.eq_false_iff.2 fun h => Lint.value_next_asking h outcome hv
    rw [hv, hasks] at hlint
    unfold wait
    rw [hasks]
    exact hlint.trans (inquires_through _ _ sweep.rest)

end Sweep

/-! ### Requests -/

/-- What a request wants to know about the version. -/
def Request.wanted? : Request → Option Wanted
  | .version => some .version
  | .format => some .format
  | _ => none

theorem Request.wanted?_eq_version {r : Request} (h : r.wanted? = some .version) :
    r = .version := by
  cases r with
  | version => rfl
  | _ => simp [wanted?] at h

/-- What a run that waits wants to know about the version. -/
def Run.wanted? : Run → Option Wanted
  | .inquiry _ wanted => some wanted
  | _ => none

/-- The answer is the right one in the session. -/
def Wanted.IsRight (s : Session) : Wanted → Answer → Prop
  | version, a => ∃ version, s.negotiation.known = some version ∧ a = .version version
  | format, a => ∃ format, s.inUse? = some format ∧ a = .format format

namespace Session

variable {s t : Session} {answer : Except Fault (Option Version)} {asking : Bool} {direct : Prop}
  {wanted : Option Wanted}

/-- What a step of a request does about the version, the request wanting to know `wanted`. -/
structure Handles (s : Session) (answer : Except Fault (Option Version)) (asking : Bool)
    (wanted : Option Wanted) (step : Step (Progress Run Answer)) : Prop where
  inquires : s.Inquires answer asking (wanted = some .version) step.session
    (step.value.wait Run.wait)
  left : ∀ run, step.value = .waiting run → run.wanted? = wanted
  answered : ∀ result, step.value = .ended result → ∀ w ∈ wanted,
    (∃ a, result = .ok a ∧ w.IsRight step.session a) ∨ ∃ fault, answer = .error fault

/-- A request that is carried out by a run of some kind, and does not want to know anything. -/
theorem handles_lift {ρ α : Type} {answerOf : α → Answer} {run : ρ → Run} {waitOf : ρ → Wait}
    {step : Step (Progress ρ α)}
    (h : s.Inquires answer asking (none = some Wanted.version) step.session
      (step.value.wait waitOf))
    (hwait : ∀ x, (run x).wait = waitOf x) (hwanted : ∀ x, (run x).wanted? = none) :
    s.Handles answer asking none (step.lift answerOf run) := by
  refine ⟨?_, fun r hr => ?_, by simp⟩
  · have hvalue : (step.lift answerOf run).value.wait Run.wait = step.value.wait waitOf := by
      unfold Step.lift
      cases step.value with
      | ended result => rfl
      | waiting x => exact hwait x
    rw [hvalue]
    exact h
  · obtain ⟨x, -, rfl⟩ := Run.waiting_of_lift hr
    exact hwanted x

/-- A step of a request that does not want to know anything, and does not touch the negotiation. -/
theorem handles_aside {step : Step (Progress Run Answer)}
    (h : s.Aside (none = some Wanted.version) step.session (step.value.wait Run.wait))
    (hwanted : ∀ run, step.value = .waiting run → run.wanted? = none) :
    s.Handles answer false none step :=
  ⟨h.inquires, hwanted, by simp⟩

theorem handles_answer (s : Session) (a : Answer) :
    s.Handles answer false none (s.answer a) :=
  handles_aside (aside_end (.refl s) rfl) (by simp [Session.answer])

theorem handles_lint (s : Session) (p : Path) (notify : Bool) :
    s.Handles answer false none (s.lint p notify) :=
  handles_lift (Lint.inquires_start s p notify) (fun _ => rfl) fun _ => rfl

theorem handles_lintDocument (s : Session) (document : Buffer) :
    s.Handles answer false none (s.lintDocument document) := by
  unfold lintDocument
  split
  · exact handles_lint s document.path true
  · exact handles_answer s _

theorem handles_lintSaved (s : Session) (document : Buffer) :
    s.Handles answer false none (s.lintSaved document) := by
  unfold lintSaved
  split
  · exact handles_lintDocument s document
  · exact handles_answer s _

/-- What follows the fix of a saved document is as good as if it came first. -/
theorem handles_savedAfter {step : Step (Progress FileFix Bool)} {document : Buffer}
    (h : s.Aside (none = some Wanted.version) step.session (step.value.wait FileFix.wait)) :
    s.Handles answer false none (savedAfter document step) := by
  unfold savedAfter
  split
  next fix hv =>
    rw [hv] at h
    refine handles_aside h fun run hr => ?_
    obtain rfl : Run.savedFix fix document = run := by simpa using hr
    rfl
  next hv =>
    rw [hv] at h
    have hlint : step.session.Handles answer false none (step.session.lintSaved document) :=
      handles_lintSaved step.session document
    exact ⟨h.inquires.trans hlint.inquires, hlint.left, by simp⟩
  next failure hv =>
    rw [hv] at h
    exact handles_aside h (by simp)

theorem handles_saving (s : Session) (document : Buffer) :
    s.Handles answer false none (s.saving document) := by
  unfold saving
  split
  · exact handles_answer s _
  split
  · exact handles_savedAfter (FileFix.aside_start s document.path)
  · exact handles_lintSaved s document

/-- An inquiry is answered with the version that is kept, or with the format that goes with it. -/
theorem handles_inquiry {step : Step (Progress Inquiry (Option Version))} {w : Wanted}
    (h : Inquiry.Learns s answer asking (some w = some .version) step)
    (hw : w = .version ∨ s.pinned = none) :
    s.Handles answer asking (some w) (step.lift w.answer (.inquiry · w)) := by
  have hinquires := h.inquires
  refine ⟨?_, fun r hr => ?_, fun result hr w' hw' => ?_⟩
  · have hvalue : (step.lift w.answer (.inquiry · w)).value.wait Run.wait =
        step.value.wait Inquiry.wait := by
      unfold Step.lift
      cases step.value <;> rfl
    rw [hvalue]
    exact hinquires
  · obtain ⟨x, -, rfl⟩ := Run.waiting_of_lift hr
    rfl
  · obtain rfl := Option.mem_some.1 hw'
    simp only [Step.lift] at hr ⊢
    cases hv : step.value with
    | waiting i => simp [hv, Progress.map] at hr
    | ended outcome =>
      rw [hv] at hr
      cases outcome with
      | error failure =>
        obtain ⟨fault, htold, -⟩ := h.failed failure hv
        exact .inr ⟨fault, htold⟩
      | ok version =>
        obtain rfl : Except.ok (w.answer version) = result := Progress.ended.inj hr
        have hknown := h.learnt version hv
        refine .inl ⟨_, rfl, ?_⟩
        cases w with
        | version => exact ⟨version, hknown, rfl⟩
        | format =>
          have hpinned : s.pinned = none := hw.resolve_left (by simp)
          exact ⟨Version.formatOf version,
            by simp [inUse?, hinquires.ground.pinned, hpinned, hknown], rfl⟩

theorem handles_findFormat (s : Session) :
    s.Handles answer false (some .format) s.findFormat := by
  unfold findFormat
  split
  next format hpinned =>
    refine ⟨(aside_end (.refl s) rfl).inquires, by simp [Session.answer], fun result hr w hw => ?_⟩
    obtain rfl := Option.mem_some.1 hw
    obtain rfl : Except.ok (Answer.format format) = result := by simpa [Session.answer] using hr
    exact .inl ⟨_, rfl, format, by simp [Session.answer, inUse?, hpinned], rfl⟩
  next hpinned =>
    exact handles_inquiry (Inquiry.learns_start (.inr hpinned)) (.inr hpinned)

/-- A run of the linter that fixes a text is waited for. -/
theorem aside_fixText (text : Str) :
    s.Aside direct s (.other (some (s.fixTextCall text))) :=
  ⟨.refl s, rfl, rfl, by
    simp [Wait.Proper, fixTextCall, Command.fixText, Command.call, Command.fixOption, Call.fixes]⟩

/-- Beginning a request. -/
theorem handles_request (s : Session) (r : Request) :
    s.Handles answer false r.wanted? (s.request r) := by
  cases r with
  | lint file notify => exact handles_lint s file notify
  | lintDocument document => exact handles_lintDocument s document
  | opened document =>
    simp only [request, opening]
    split
    · exact handles_lintDocument s document
    · exact handles_answer s _
  | saved document => exact handles_saving s document
  | changed document =>
    simp only [request, changing]
    split
    · refine handles_aside (aside_end (.refl s) rfl) fun run hr => ?_
      obtain rfl : Run.pause document = run := by simpa using hr
      rfl
    · exact handles_answer s _
  | sweep => exact handles_lift (Sweep.inquires_start s) (fun _ => rfl) fun _ => rfl
  | fixFile file =>
    exact handles_lift (FileFix.aside_start s file).inquires (fun _ => rfl) fun _ => rfl
  | fixText text =>
    refine handles_aside (aside_fixText text) fun run hr => ?_
    obtain rfl : Run.fixText (s.fixTextCall text) = run := by simpa [request, fixText] using hr
    rfl
  | fixDocument name =>
    simp only [request, fixDocument]
    split
    · exact handles_answer s _
    next document _ =>
      refine handles_aside (aside_fixText _) fun run hr => ?_
      obtain rfl := Progress.waiting.inj hr
      rfl
  | version => exact handles_inquiry (Inquiry.learns_start (.inl rfl)) (.inl rfl)
  | format => exact handles_findFormat s

end Session

namespace Run

open Session

/-- Going on with a run. -/
theorem handles_next {s : Session} {run : Run} (reply : Call → Reply)
    (hproper : run.wait.Proper s (run.wanted? = some .version))
    (hfree : run.isQueueing = true → s.negotiation.isFree = true) :
    s.Handles (Version.ofReply (reply (.forVersion s.settings))) run.wait.asks run.wanted?
      (run.next s reply) := by
  cases run with
  | inquiry i w =>
    have hw := (Inquiry.direct_or_unpinned hproper).imp_left Option.some.inj
    have hqueueing : i = .queueing → s.negotiation.isFree = true := by
      rintro rfl
      exact hfree rfl
    exact handles_inquiry (Inquiry.learns_next hproper hqueueing) hw
  | lint l =>
    have hlint := Lint.inquires_next reply (by simp [wanted?]) hproper hfree
    exact handles_lift hlint (fun _ => rfl) fun _ => rfl
  | sweep w =>
    have hsweep := Sweep.inquires_next reply (by simp [wanted?]) hproper hfree
    exact handles_lift hsweep (fun _ => rfl) fun _ => rfl
  | fix f =>
    exact handles_lift (FileFix.aside_next s reply f).inquires (fun _ => rfl) fun _ => rfl
  | savedFix f document => exact handles_savedAfter (FileFix.aside_next s reply f)
  | pause document => exact handles_lintDocument s document
  | fixText call => exact handles_aside (aside_end (.refl s) rfl) (by simp [next])
  | fixDocument name original call =>
    exact handles_aside (aside_end (.refl s) rfl) (by simp [next])

end Run

end LintBridge
