import LintBridge.Session.Schedule

/-!
# LintBridge.Proofs.Steps

What one step of a request does to a session, said once for all kinds of requests. A waiting run has
a `Stake`: the file that it keeps other runs from, the run of the linter that it waits for, and the
paths that it may still turn to. `Session.Goes s a t events b` says how a step gets from `s` to `t`
when the stake changes from `a` to `b`; `Session.Quiet` adds that no records are stored and nothing
on show changes. Both can be composed, so a sweep, which may do many things in one step, needs no
more than one induction.

Here are the steps of inquiries, lint runs, fixes of files and sweeps. A lint run is quiet but for
the step that finds records (`Lint.passes_next`), and what that step does is `Lint.next_of_found`.
-/

namespace LintBridge

namespace Event

/-- Whether the diagnostics on show stay as they are. -/
def isSilent : Event → Bool
  | publish .. | clear => false
  | _ => true

/-- Whether something is only made known. -/
def isNotice : Event → Bool
  | showError _ | showInfo _ | log _ => true
  | _ => false

theorem call?_of_isNotice {e : Event} (h : e.isNotice) : e.call? = none := by
  cases e with
  | call c => simp [isNotice] at h
  | _ => rfl

theorem isSilent_of_isNotice {e : Event} (h : e.isNotice) : e.isSilent := by
  cases e with
  | publish file diagnostics => simp [isNotice] at h
  | clear => simp [isNotice] at h
  | _ => rfl

theorem filterMap_call?_of_isNotice {events : List Event} (h : ∀ e ∈ events, e.isNotice) :
    events.filterMap call? = [] :=
  List.filterMap_eq_nil_iff.2 fun e he => call?_of_isNotice (h e he)

end Event

/-- What a run that waits has a stake in. -/
structure Stake where
  /-- The file that other runs are kept from. -/
  file : Option Path := none
  /-- The run of the linter that is waited for. -/
  call : Option Call := none
  /-- Paths of files that may come next. -/
  paths : List Path := []

namespace Progress

variable {ρ α : Type}

/-- The stake of the run that is left waiting, if there is one. -/
def stake (stakeOf : ρ → Stake) : Progress ρ α → Stake
  | ended _ => {}
  | waiting run => stakeOf run

@[simp] theorem stake_ended (stakeOf : ρ → Stake) (result : Except Failure α) :
    (ended result : Progress ρ α).stake stakeOf = {} :=
  rfl

@[simp] theorem stake_waiting (stakeOf : ρ → Stake) (run : ρ) :
    (waiting run : Progress ρ α).stake stakeOf = stakeOf run :=
  rfl

@[simp] theorem stake_map {ρ' α' : Type} (f : α → α') (g : ρ → ρ') (stakeOf : ρ' → Stake)
    (p : Progress ρ α) : (p.map f g).stake stakeOf = p.stake fun run => stakeOf (g run) := by
  cases p <;> rfl

end Progress

namespace Step

variable {α : Type}

@[simp] theorem session_after (earlier : List Event) (step : Step α) :
    (step.after earlier).session = step.session :=
  rfl

@[simp] theorem events_after (earlier : List Event) (step : Step α) :
    (step.after earlier).events = earlier ++ step.events :=
  rfl

@[simp] theorem value_after (earlier : List Event) (step : Step α) :
    (step.after earlier).value = step.value :=
  rfl

end Step

namespace Session

/-! ### What is fixed once a session has been opened -/

/-- Two states of one session. -/
structure SameGround (s t : Session) : Prop where
  disk : t.disk = s.disk
  settings : t.settings = s.settings
  workspace : t.workspace = s.workspace
  pinned : t.pinned = s.pinned
  listed : t.listed = s.listed

variable {s t u : Session}

theorem SameGround.refl (s : Session) : s.SameGround s :=
  ⟨rfl, rfl, rfl, rfl, rfl⟩

theorem SameGround.trans (h : s.SameGround t) (h' : t.SameGround u) : s.SameGround u :=
  ⟨h'.disk.trans h.disk, h'.settings.trans h.settings, h'.workspace.trans h.workspace,
    h'.pinned.trans h.pinned, h'.listed.trans h.listed⟩

/-- A session that has been opened is empty, and knows its workspace by the canonical path. -/
theorem opened_eq_ok {disk : Disk} {settings : Settings} {root : Option Path}
    {pinned : Option Format} {listed : Option (List Path)}
    (h : opened disk settings root pinned listed = .ok s) :
    ∃ workspace, root.mapM disk.canonical = .ok workspace ∧
      s = { disk, settings, workspace, pinned, listed } := by
  obtain ⟨workspace, hroot, h⟩ := bind_eq_ok.1 h
  exact ⟨workspace, hroot, (Except.ok.inj h).symm⟩

/-! ### Steps -/

/-- How a session gets from `s` to `t` in a step of a request, which has the stake `a` before the
step and `b` after it. -/
structure Goes (s : Session) (a : Stake) (t : Session) (events : List Event) (b : Stake) :
    Prop where
  ground : s.SameGround t
  disposed : t.disposed = s.disposed
  /-- The file held before is let go of, unless it is still held after the step. -/
  inFlight : ∀ f, f ∈ t.inFlight ↔ f ∈ b.file ∨ f ∈ s.inFlight ∧ f ∉ a.file
  /-- No file is taken that is in flight for somebody else. -/
  fresh : ∀ f ∈ b.file, f ∈ s.inFlight → f ∈ a.file
  named : ∀ f ∈ b.file, f ∈ a.file ∨ ∃ p ∈ a.paths, s.disk.canonical p = .ok f
  paths : b.paths ⊆ a.paths
  /-- A run of the linter is started exactly when it is waited for after the step. -/
  calls : events.filterMap Event.call? = b.call.toList

/-- A step that stores no records and changes nothing on show. -/
structure Quiet (s : Session) (a : Stake) (t : Session) (events : List Event) (b : Stake) : Prop
    extends Goes s a t events b where
  store : t.store = s.store
  silent : ∀ e ∈ events, e.isSilent

variable {a b : Stake} {call : Option Call} {paths paths' : List Path}
  {events events' : List Event} {file p : Path}

theorem Goes.trans (h : s.Goes a t events {}) (h' : t.Goes ⟨none, call, paths⟩ u events' b)
    (hpaths : paths ⊆ a.paths) : s.Goes a u (events ++ events') b := by
  refine ⟨h.ground.trans h'.ground, h'.disposed.trans h.disposed, fun f => ?_, fun f hf hs => ?_,
    fun f hf => ?_, List.Subset.trans h'.paths hpaths, ?_⟩
  · rw [h'.inFlight f, h.inFlight f]
    simp
  · by_cases hown : f ∈ a.file
    · exact hown
    · have hmid : f ∈ t.inFlight := (h.inFlight f).2 (.inr ⟨hs, hown⟩)
      exact absurd (h'.fresh f hf hmid) (by simp)
  · rcases h'.named f hf with hown | ⟨p, hp, hc⟩
    · exact absurd hown (by simp)
    · exact .inr ⟨p, hpaths hp, by rw [← h.ground.disk]; exact hc⟩
  · rw [List.filterMap_append, h.calls, h'.calls]
    rfl

theorem Quiet.trans (h : s.Quiet a t events {}) (h' : t.Quiet ⟨none, call, paths⟩ u events' b)
    (hpaths : paths ⊆ a.paths) : s.Quiet a u (events ++ events') b :=
  ⟨h.toGoes.trans h'.toGoes hpaths, h'.store.trans h.store, fun e he =>
    (List.mem_append.1 he).elim (h.silent e) (h'.silent e)⟩

/-- More paths may come next, before the step and after it. -/
theorem Goes.widen (h : s.Goes a t events b) (ha : a.paths ⊆ paths) (hb : paths' ⊆ paths) :
    s.Goes { a with paths } t events { b with paths := paths' } :=
  ⟨h.ground, h.disposed, h.inFlight, h.fresh, fun f hf =>
    (h.named f hf).imp_right fun ⟨p, hp, hc⟩ => ⟨p, ha hp, hc⟩, hb, h.calls⟩

theorem Quiet.widen (h : s.Quiet a t events b) (ha : a.paths ⊆ paths) (hb : paths' ⊆ paths) :
    s.Quiet { a with paths } t events { b with paths := paths' } :=
  ⟨h.toGoes.widen ha hb, h.store, h.silent⟩

/-- A step of a request that holds no file, before the step and after it. -/
theorem quiet_free (s : Session) (call : Option Call) (hpaths : b.paths ⊆ paths)
    (hb : b.file = none) (hcalls : events.filterMap Event.call? = b.call.toList)
    (hsilent : ∀ e ∈ events, e.isSilent) : s.Quiet ⟨none, call, paths⟩ s events b where
  ground := .refl s
  disposed := rfl
  inFlight := by simp [hb]
  fresh := by simp [hb]
  named := by simp [hb]
  paths := hpaths
  calls := hcalls
  store := rfl
  silent := hsilent

/-- A step that makes something known and ends a request which holds no file. -/
theorem quiet_notices (s : Session) (call : Option Call) (paths : List Path)
    (h : ∀ e ∈ events, e.isNotice) : s.Quiet ⟨none, call, paths⟩ s events {} :=
  quiet_free s call (List.nil_subset _) rfl (Event.filterMap_call?_of_isNotice h) fun e he =>
    Event.isSilent_of_isNotice (h e he)

/-- A step that makes something known and ends a run for a file. -/
theorem quiet_leave (s : Session) (file : Path) (call : Option Call) (paths : List Path)
    (h : ∀ e ∈ events, e.isNotice) :
    s.Quiet ⟨some file, call, paths⟩ (s.leave file) events {} where
  ground := ⟨rfl, rfl, rfl, rfl, rfl⟩
  disposed := rfl
  inFlight := by
    intro f
    by_cases hf : f = file
    · simp [leave, hf]
    · simp [leave, hf, Ne.symm hf]
  fresh := by simp
  named := by simp
  paths := by simp
  calls := Event.filterMap_call?_of_isNotice h
  store := rfl
  silent := fun e he => Event.isSilent_of_isNotice (h e he)

/-- A step after which a run for the same file waits, perhaps for a new run of the linter. -/
theorem quiet_hold (hfile : file ∈ s.inFlight) (call next : Option Call) (paths : List Path) :
    s.Quiet ⟨some file, call, paths⟩ s (next.toList.map .call) ⟨some file, next, paths⟩ where
  ground := .refl s
  disposed := rfl
  inFlight := by
    intro f
    by_cases hf : f = file
    · simp [hf, hfile]
    · simp [Ne.symm hf]
  fresh := fun f hf _ => hf
  named := fun f hf => .inl hf
  paths := fun p hp => hp
  calls := by cases next <;> rfl
  store := rfl
  silent := by cases next <;> simp [Event.isSilent]

/-- A step that goes on from a file having been let in. -/
theorem Quiet.of_enter (h : (s.enter file).Quiet ⟨some file, call, []⟩ t events b)
    (hc : s.disk.canonical p = .ok file) (hfile : file ∉ s.inFlight) :
    s.Quiet ⟨none, none, [p]⟩ t events b := by
  have hb : ∀ f ∈ b.file, f = file := by
    intro f hf
    rcases h.named f hf with hown | ⟨q, hq, -⟩
    · exact (Option.mem_some.1 hown).symm
    · simp at hq
  have hg := h.ground
  refine ⟨⟨⟨hg.disk, hg.settings, hg.workspace, hg.pinned, hg.listed⟩, h.disposed, fun f => ?_,
    fun f hf hs => ?_, fun f hf => ?_, ?_, h.calls⟩, h.store, h.silent⟩
  · rw [h.inFlight f]
    by_cases hf : f = file
    · subst hf
      simp [hfile]
    · simp [enter, hf, Ne.symm hf]
  · exact absurd (hb f hf ▸ hs) hfile
  · exact .inr ⟨p, by simp, by rw [hb f hf]; exact hc⟩
  · exact fun q hq => absurd (h.paths hq) (by simp)

/-- Something is made known first. -/
theorem Quiet.after_notices (h : s.Quiet a t events b) (hn : ∀ e ∈ events', e.isNotice) :
    s.Quiet a t (events' ++ events) b := by
  refine ⟨⟨h.ground, h.disposed, h.inFlight, h.fresh, h.named, h.paths, ?_⟩, h.store, ?_⟩
  · rw [List.filterMap_append, Event.filterMap_call?_of_isNotice hn, h.calls]
    rfl
  · intro e he
    rcases List.mem_append.1 he with he | he
    · exact Event.isSilent_of_isNotice (hn e he)
    · exact h.silent e he

/-- The negotiation of the version concerns nobody else. -/
theorem Quiet.of_negotiation {negotiation : Negotiation}
    (h : ({ s with negotiation } : Session).Quiet a t events b) : s.Quiet a t events b :=
  ⟨⟨⟨h.ground.disk, h.ground.settings, h.ground.workspace, h.ground.pinned, h.ground.listed⟩,
    h.disposed, h.inFlight, h.fresh, h.named, h.paths, h.calls⟩, h.store, h.silent⟩

end Session

/-! ### Inquiries -/

namespace Inquiry

/-- What an inquiry that waits has a stake in. -/
def stake (i : Inquiry) : Stake :=
  { call := i.call? }

/-- A step of an inquiry changes nothing but the negotiation, and it may call the linter. -/
def Asks (s : Session) (step : Step (Progress Inquiry (Option Version))) : Prop :=
  (∃ negotiation, step.session = { s with negotiation }) ∧
    step.events = (step.value.stake stake).call.toList.map .call

theorem asks_admitted (s : Session) (r : Admission × Negotiation) : Asks s (admitted s r) := by
  obtain ⟨admission, negotiation⟩ := r
  cases admission with
  | answered version => exact ⟨⟨negotiation, rfl⟩, rfl⟩
  | queued => exact ⟨⟨negotiation, rfl⟩, rfl⟩
  | asks => exact ⟨⟨negotiation, rfl⟩, rfl⟩

theorem asks_start (s : Session) : Asks s (start s) :=
  asks_admitted s _

theorem asks_next (s : Session) (reply : Call → Reply) (i : Inquiry) :
    Asks s (i.next s reply) := by
  cases i with
  | queueing => exact asks_admitted s _
  | asking call =>
    simp only [next]
    split
    · exact ⟨⟨_, rfl⟩, rfl⟩
    · exact ⟨⟨_, rfl⟩, rfl⟩

/-- A step of an inquiry is a quiet one. -/
theorem Asks.quiet {s : Session} {step : Step (Progress Inquiry (Option Version))}
    (h : Asks s step) (call : Option Call) :
    s.Quiet { call } step.session step.events (step.value.stake stake) := by
  obtain ⟨⟨negotiation, hs⟩, he⟩ := h
  have hstake : step.value.stake stake = { call := (step.value.stake stake).call } := by
    cases step.value <;> rfl
  rw [hs, he, hstake]
  refine ⟨⟨⟨rfl, rfl, rfl, rfl, rfl⟩, rfl, by simp, by simp, by simp, by simp, ?_⟩, rfl, ?_⟩
  · cases (step.value.stake stake).call <;> rfl
  · cases (step.value.stake stake).call <;> simp [Event.isSilent]

end Inquiry

/-! ### Lint runs -/

namespace Lint

open Session

variable {s : Session} {file p : Path} {notify : Bool} {format : Format} {before : Option Call}
  {reply : Call → Reply} {found : Groups} {lint : Lint}

/-- What a lint run that waits has a stake in. -/
def stake (lint : Lint) : Stake :=
  { file := lint.file, call := lint.call? }

theorem isNotice_failureEvents (file : Path) (e : LintError) (notify : Bool) :
    ∀ event ∈ failureEvents file e notify, event.isNotice := by
  intro event h
  rcases List.mem_append.1 h with h | h
  · obtain ⟨entry, -, rfl⟩ := List.mem_map.1 h
    rfl
  · cases notify
    · simp at h
    · obtain rfl : event = .showError (notification e) := by simpa using h
      rfl

/-- What a step of a lint run for `file` does if no records are stored. -/
def Passes (s : Session) (file : Path) (before : Option Call)
    (step : Step (Progress Lint Outcome)) : Prop :=
  s.Quiet ⟨some file, before, []⟩ step.session step.events (step.value.stake stake) ∧
    step.value ≠ .ended (.ok .completed)

theorem passes_leave {events : List Event} {result : Except Failure Outcome}
    (h : ∀ e ∈ events, e.isNotice) (hr : result ≠ .ok .completed) :
    Passes s file before ⟨s.leave file, events, .ended result⟩ :=
  ⟨quiet_leave s file before [] h, by simpa using hr⟩

theorem Passes.after {step : Step (Progress Lint Outcome)} {events : List Event}
    (h : Passes s file before step) (hn : ∀ e ∈ events, e.isNotice) :
    Passes s file before (step.after events) :=
  ⟨h.1.after_notices hn, h.2⟩

theorem passes_fail (s : Session) (file : Path) (notify : Bool) (before : Option Call)
    (failure : Failure) : Passes s file before (fail s file notify failure) := by
  cases failure with
  | lint e => exact passes_leave (isNotice_failureEvents file e notify) (by simp)
  | fault f => exact passes_leave (by simp) (by simp)

theorem passes_call (hfile : file ∈ s.inFlight) (notify : Bool) (format : Format) :
    Passes s file before (call s file notify format) := by
  unfold call
  split
  · exact passes_fail s file notify before _
  next command _ =>
    exact ⟨quiet_hold hfile before (some (command.call s.settings)) [], by simp⟩

/-- A run that learns the version passes, whatever its inquiry does. -/
theorem passes_informed (hfile : file ∈ s.inFlight)
    {step : Step (Progress Inquiry (Option Version))} (h : Inquiry.Asks s step) :
    Passes s file before (informed file notify step) := by
  obtain ⟨⟨negotiation, hs⟩, he⟩ := h
  have hfile' : file ∈ step.session.inFlight := by rw [hs]; exact hfile
  have key : Passes step.session file before (informed file notify step) := by
    unfold informed
    split
    next i hi =>
      rw [he, hi]
      exact ⟨quiet_hold hfile' before i.call? [], by simp⟩
    next version hv =>
      rw [he, hv]
      exact passes_call hfile' notify (Version.formatOf version)
    next failure hf =>
      rw [he, hf]
      exact passes_fail step.session file notify before failure
  -- what is left is the change of the negotiation, which concerns nobody else
  rw [hs] at key
  exact ⟨key.1.of_negotiation, key.2⟩

theorem passes_letIn (hfile : file ∈ s.inFlight) (notify : Bool) :
    Passes s file before (letIn s file notify) := by
  unfold letIn
  split
  · exact passes_call hfile notify _
  · exact passes_informed hfile (Inquiry.asks_start s)

/-- Beginning a request to lint a file is quiet, and it never completes at once. -/
theorem quiet_start (s : Session) (p : Path) (notify : Bool) :
    s.Quiet ⟨none, none, [p]⟩ (start s p notify).session (start s p notify).events
        ((start s p notify).value.stake stake) ∧
      (start s p notify).value ≠ .ended (.ok .completed) := by
  unfold start
  split
  next fault _ => exact ⟨quiet_notices s _ _ (by simp), by simp⟩
  next file hc =>
    split
    · exact ⟨quiet_notices s _ _ (by simp), by simp⟩
    split
    · exact ⟨quiet_notices s _ _ (by simp), by simp⟩
    · next hfile =>
      have hentered : file ∈ (s.enter file).inFlight := by simp [enter]
      have hpasses : Passes (s.enter file) file none (letIn (s.enter file) file notify) :=
        passes_letIn hentered notify
      exact ⟨hpasses.1.of_enter hc (by simpa using hfile), hpasses.2⟩

/-- The records that a step of a lint run finds and is about to store, if it gets that far. -/
def found? (s : Session) (reply : Call → Reply) (lint : Lint) : Option Groups :=
  match lint.stage with
  | .inquiring _ => none
  | .running format call =>
    match reply call with
    | .error _ => none
    | .ok completed =>
      if s.disposed then none else (groups s lint.file format completed.stdout).toOption

/-- A step that finds no records to store passes. -/
theorem passes_next (hfile : lint.file ∈ s.inFlight) (h : lint.found? s reply = none) :
    Passes s lint.file lint.call? (lint.next s reply) := by
  unfold next
  unfold found? at h
  split
  next inquiry _ => exact passes_informed hfile (Inquiry.asks_next s reply inquiry)
  next format call hstage =>
    rw [hstage] at h
    dsimp only at h
    unfold conclude
    cases hr : reply call with
    | error failure => exact passes_fail s lint.file lint.notify _ failure
    | ok completed =>
      rw [hr] at h
      dsimp only at h ⊢
      cases hg : groups s lint.file format completed.stdout with
      | error failure =>
        exact (passes_fail s lint.file lint.notify _ failure).after (by simp [Event.isNotice])
      | ok found =>
        rw [hg] at h
        cases hd : s.disposed with
        | false => simp [hd, Except.toOption] at h
        | true =>
          have hleft : (s.leave lint.file).disposed = true := hd
          simp only [finish, hleft, if_true]
          exact passes_leave (by simp) (by simp)

/-- A step that finds records goes on to store and publish them. -/
theorem next_of_found (h : lint.found? s reply = some found) :
    lint.next s reply =
      ⟨(publish (s.leave lint.file) found).session, (publish (s.leave lint.file) found).events,
        .ended ((orFault (publish (s.leave lint.file) found).value).map fun () => .completed)⟩ := by
  obtain ⟨file, notify, stage⟩ := lint
  cases stage with
  | inquiring inquiry => simp [found?] at h
  | running format call =>
    simp only [found?] at h
    cases hr : reply call with
    | error failure => simp [hr] at h
    | ok completed =>
      cases hd : s.disposed with
      | true => simp [hr, hd] at h
      | false =>
        cases hg : groups s file format completed.stdout with
        | error failure => simp [hr, hd, hg, Except.toOption] at h
        | ok found' =>
          obtain rfl : found' = found := by simpa [hr, hd, hg, Except.toOption] using h
          have hleft : (s.leave file).disposed = false := hd
          simp only [next, conclude, hr, hg, finish, hleft]
          rfl

/-- Storing records changes the store only, and publishes at most. -/
theorem publish_spec (s : Session) (found : Groups) :
    (∃ store, (publish s found).session = { s with store }) ∧
      ∀ e ∈ (publish s found).events, ∃ file diagnostics, e = .publish file diagnostics := by
  induction found generalizing s with
  | nil => exact ⟨⟨s.store, rfl⟩, by simp [publish]⟩
  | cons entry rest ih =>
    obtain ⟨file, records⟩ := entry
    unfold publish
    split
    · exact ⟨⟨s.store, rfl⟩, by simp⟩
    next store _ =>
      dsimp only
      split
      · exact ⟨⟨store, rfl⟩, by simp⟩
      next diagnostics _ =>
        obtain ⟨⟨store', hs⟩, he⟩ := ih { s with store }
        refine ⟨⟨store', by rw [Step.session_after, hs]⟩, fun e h => ?_⟩
        rcases List.mem_cons.1 h with rfl | h
        · exact ⟨file, diagnostics, rfl⟩
        · exact he e h

/-- What a step of a lint run does to the files in flight. -/
theorem goes_next (reply : Call → Reply) (hfile : lint.file ∈ s.inFlight) :
    s.Goes lint.stake (lint.next s reply).session (lint.next s reply).events
      ((lint.next s reply).value.stake stake) := by
  cases h : lint.found? s reply with
  | none => exact (passes_next hfile h).1.toGoes
  | some found =>
    obtain ⟨⟨store, hs⟩, he⟩ := publish_spec (s.leave lint.file) found
    have hleave : s.Quiet lint.stake (s.leave lint.file) [] {} :=
      quiet_leave s lint.file lint.call? [] (by simp)
    rw [next_of_found h]
    refine ⟨?_, ?_, ?_, by simp, by simp, by simp, ?_⟩
    · rw [hs]
      exact ⟨rfl, rfl, rfl, rfl, rfl⟩
    · rw [hs]
      rfl
    · rw [hs]
      exact hleave.inFlight
    · refine List.filterMap_eq_nil_iff.2 fun e h => ?_
      obtain ⟨file, diagnostics, rfl⟩ := he e h
      rfl

end Lint

/-! ### Fixes of files -/

namespace FileFix

open Session

/-- What a fix that waits has a stake in. -/
def stake (fix : FileFix) : Stake :=
  { file := fix.file, call := fix.call }

theorem quiet_start (s : Session) (p : Path) :
    s.Quiet ⟨none, none, [p]⟩ (start s p).session (start s p).events
      ((start s p).value.stake stake) := by
  unfold start
  split
  · exact quiet_notices s _ _ (by simp)
  next file hc =>
    split
    · exact quiet_notices s _ _ (by simp)
    next hfile =>
      split
      · exact quiet_notices s _ _ (by simp)
      next command _ =>
        have hentered : file ∈ (s.enter file).inFlight := by simp [enter]
        have hold := quiet_hold hentered none (some (command.call s.settings)) []
        exact hold.of_enter hc (by simpa using hfile)

/-- A fix ends with the linter's reply, and lets go of its file. -/
theorem quiet_next (s : Session) (reply : Call → Reply) (fix : FileFix) (paths : List Path) :
    s.Quiet ⟨some fix.file, some fix.call, paths⟩ (fix.next s reply).session
      (fix.next s reply).events ((fix.next s reply).value.stake stake) := by
  unfold next
  dsimp only
  split
  · exact quiet_leave s fix.file _ paths (by simp)
  next e _ =>
    exact quiet_leave s fix.file _ paths (Lint.isNotice_failureEvents fix.file e true)
  · exact quiet_leave s fix.file _ paths (by simp)

end FileFix

/-! ### Sweeps -/

namespace Sweep

open Session

variable {s : Session} {reply : Call → Reply} {sweep : Sweep}

/-- What a sweep that waits has a stake in. -/
def stake (sweep : Sweep) : Stake :=
  { sweep.lint.stake with paths := sweep.rest }

/-- The files that a sweep of the session's workspace goes through. -/
def targets (s : Session) : List Path :=
  match s.workspace with
  | none => []
  | some root => (files s root).toOption.getD []

/-- The induction is on the files that are still to come: up to the first one whose run waits,
nothing is stored. -/
theorem quiet_through (s : Session) (report : SweepReport) (files : List Path) :
    s.Quiet ⟨none, none, files⟩ (through s report files).session (through s report files).events
      ((through s report files).value.stake stake) := by
  induction files generalizing s report with
  | nil => exact quiet_notices s _ _ (by simp [through, Event.isNotice])
  | cons file rest ih =>
    have hlint := (Lint.quiet_start s file false).1
    have hfile : [file] ⊆ file :: rest := by simp
    unfold through
    dsimp only
    split
    next lint hv =>
      rw [hv] at hlint
      exact hlint.widen hfile (List.subset_cons_self file rest)
    next failure hv =>
      rw [hv] at hlint
      exact hlint.widen hfile (List.nil_subset _)
    next outcome hv =>
      rw [hv] at hlint
      -- the first file is done with, so the others are gone through as if alone
      have hrest := ih (Lint.start s file false).session (report.add file outcome)
      exact (hlint.widen hfile (List.nil_subset _)).trans hrest (List.subset_cons_self file rest)

theorem quiet_start (s : Session) :
    s.Quiet ⟨none, none, targets s⟩ (start s).session (start s).events
      ((start s).value.stake stake) := by
  unfold start
  split
  · exact quiet_notices s _ _ (by simp)
  split
  · exact quiet_notices s _ _ (by simp [Event.isNotice])
  next root hroot =>
    split
    · exact quiet_notices s _ _ (by simp)
    · exact quiet_notices s _ _ (by simp [Event.isNotice])
    next all _ hall =>
      have htargets : targets s = all := by simp [targets, hroot, hall, Except.toOption]
      rw [htargets]
      exact quiet_through s {} all

/-- Going on with a sweep: the run for its current file goes on, and quiet steps may follow. -/
theorem next_elim {P : Session → List Event → Stake → Prop}
    (stop : ∀ paths ⊆ sweep.rest, P (sweep.lint.next s reply).session
      (sweep.lint.next s reply).events
      { (sweep.lint.next s reply).value.stake Lint.stake with paths })
    (go : (sweep.lint.next s reply).value.stake Lint.stake = {} → ∀ u events b,
      (sweep.lint.next s reply).session.Quiet ⟨none, none, sweep.rest⟩ u events b →
      P u ((sweep.lint.next s reply).events ++ events) b) :
    P (sweep.next s reply).session (sweep.next s reply).events
      ((sweep.next s reply).value.stake stake) := by
  unfold next
  dsimp only
  split
  next lint hv =>
    rw [hv] at stop
    exact stop sweep.rest (List.Subset.refl _)
  next failure hv =>
    rw [hv] at stop
    exact stop [] (List.nil_subset _)
  next outcome hv =>
    rw [hv] at go
    exact go rfl _ _ _ (quiet_through _ _ sweep.rest)

theorem goes_next (reply : Call → Reply) (hfile : sweep.lint.file ∈ s.inFlight) :
    s.Goes sweep.stake (sweep.next s reply).session (sweep.next s reply).events
      ((sweep.next s reply).value.stake stake) := by
  have hlint := Lint.goes_next reply hfile
  refine next_elim (P := s.Goes sweep.stake) (fun paths hp => ?_) fun hv u events b hrest => ?_
  · exact hlint.widen (List.nil_subset sweep.rest) hp
  · rw [hv] at hlint
    have hfirst := hlint.widen (List.nil_subset sweep.rest) (List.nil_subset _)
    exact hfirst.trans hrest.toGoes (List.Subset.refl _)

theorem quiet_next (hfile : sweep.lint.file ∈ s.inFlight)
    (h : sweep.lint.found? s reply = none) :
    s.Quiet sweep.stake (sweep.next s reply).session (sweep.next s reply).events
      ((sweep.next s reply).value.stake stake) := by
  have hlint := (Lint.passes_next hfile h).1
  refine next_elim (P := s.Quiet sweep.stake) (fun paths hp => ?_) fun hv u events b hrest => ?_
  · exact hlint.widen (List.nil_subset sweep.rest) hp
  · rw [hv] at hlint
    have hfirst := hlint.widen (List.nil_subset sweep.rest) (List.nil_subset _)
    exact hfirst.trans hrest (List.Subset.refl _)

end Sweep

end LintBridge
