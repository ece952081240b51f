import LintBridge.Proofs.Plays
import Mathlib.Data.List.Nodup

/-!
# LintBridge.Proofs.Exclusion

No two runs of the linter are alive for one file. The files in flight are those that waiting runs
hold, and no file is held twice (`Schedule.Apart`). A step of a run is seen in two halves: while the
run is out of the list of waiting runs, it alone answers for the file that it holds
(`Schedule.OneOut`), and `Session.Goes` says what it holds when it is put back. So no move needs to
be looked at for what kind of request makes it.

Main results:

* `Schedule.Apart.move`: every move keeps files apart.
* `Schedule.play_guarded`: what holds of the files in flight after any moves.
-/

namespace LintBridge

/-- In a list that has no key twice, every entry is found by its key. -/
theorem lookup_of_mem {α β : Type} [BEq α] [LawfulBEq α] {l : List (α × β)} {key : α} {value : β}
    (h : (l.map (·.1)).Nodup) (hmem : (key, value) ∈ l) : l.lookup key = some value := by
  obtain ⟨before, after, rfl⟩ := List.append_of_mem hmem
  refine List.lookup_eq_some_iff.2 ⟨before, after, rfl, fun entry hentry => ?_⟩
  rw [List.map_append, List.map_cons, List.nodup_append] at h
  have hne := h.2.2 entry.1 (List.mem_map_of_mem hentry) key (List.mem_cons_self ..)
  simpa using Ne.symm hne

/-- The run of the linter over a file that a lint run waits for. Asking for the version is none. -/
def Lint.process? (lint : Lint) : Option (Path × Call) :=
  match lint.stage with
  | .inquiring _ => none
  | .running _ call => some (lint.file, call)

/-- The run of the linter over a file, to lint it or to fix it, that a run waits for. -/
def Run.process? : Run → Option (Path × Call)
  | lint l => l.process?
  | sweep w => w.lint.process?
  | fix f | savedFix f _ => some (f.file, f.call)
  | _ => none

/-- The file that a run holds: it has been let in for it and has not let go of it. -/
def Run.file? (run : Run) : Option Path :=
  run.stake.file

theorem Run.stake_call (run : Run) : run.stake.call = run.call? := by
  cases run with
  | inquiry i wanted => rfl
  | lint l => rfl
  | sweep w => rfl
  | _ => rfl

/-- A run of the linter is over the file that is held. -/
theorem Run.file?_of_process? {run : Run} {file : Path} {call : Call}
    (h : run.process? = some (file, call)) : run.file? = some file := by
  have hlint : ∀ {l : Lint}, l.process? = some (file, call) → l.file = file := by
    intro l hl
    unfold Lint.process? at hl
    split at hl
    · simp at hl
    · exact (Prod.mk.inj (Option.some.inj hl)).1
  cases run with
  | lint l => exact congrArg some (hlint h)
  | sweep w => exact congrArg some (hlint h)
  | fix f => exact congrArg some (Prod.mk.inj (Option.some.inj h)).1
  | savedFix f document => exact congrArg some (Prod.mk.inj (Option.some.inj h)).1
  | _ => simp [Run.process?] at h

namespace Schedule

variable {s : Schedule} {number : Nat} {run : Run} {own : Option Path} {f : Path}

/-- The files that waiting runs hold. -/
def held (s : Schedule) : List Path :=
  s.waiting.filterMap (·.2.file?)

/-- The runs of the linter over files that are alive. -/
def processes (s : Schedule) : List (Path × Call) :=
  s.waiting.filterMap (·.2.process?)

/-- The files in flight are those that waiting runs hold, each of them once, and every request
either has a run that waits or has ended. -/
structure Apart (s : Schedule) : Prop where
  numbers : (s.waiting.map (·.1) ++ s.ended.map (·.1)).Perm (List.range s.issued)
  inFlight : ∀ f, f ∈ s.session.inFlight ↔ f ∈ s.held
  alone : s.held.Nodup

/-- The same while the run of a request, which holds `own`, makes a step and is not listed. -/
structure OneOut (s : Schedule) (number : Nat) (own : Option Path) : Prop where
  numbers : (number :: (s.waiting.map (·.1) ++ s.ended.map (·.1))).Perm (List.range s.issued)
  inFlight : ∀ f, f ∈ s.session.inFlight ↔ f ∈ own ∨ f ∈ s.held
  alone : ∀ f ∈ own, f ∉ s.held
  rest : s.held.Nodup

/-- A request begins. -/
theorem Apart.begin (h : s.Apart) : OneOut { s with issued := s.issued + 1 } s.issued none where
  numbers := by
    rw [List.range_succ]
    exact (h.numbers.cons s.issued).trans (List.perm_append_singleton _ _).symm
  inFlight := fun f => (h.inFlight f).trans (by simp [held])
  alone := by simp
  rest := h.alone

/-- No request is listed twice, be it as waiting or as ended. -/
theorem Apart.nodup (h : s.Apart) : (s.waiting.map (·.1) ++ s.ended.map (·.1)).Nodup :=
  h.numbers.nodup_iff.2 List.nodup_range

/-- A request has one result. -/
theorem Apart.result_unique (h : s.Apart) {result result' : Except Failure Answer}
    (hr : (number, result) ∈ s.ended) (hr' : (number, result') ∈ s.ended) : result = result' :=
  (Prod.mk.inj (List.inj_on_of_nodup_map (List.nodup_append.1 h.nodup).2.1 hr hr' rfl)).2

/-- A request that has ended does not go on. -/
theorem Apart.lookup_of_ended (h : s.Apart) {result : Except Failure Answer}
    (hr : (number, result) ∈ s.ended) : s.waiting.lookup number = none := by
  rw [List.lookup_eq_none_iff]
  intro e he
  have hne := (List.nodup_append.1 h.nodup).2.2 e.1 (List.mem_map_of_mem he) number
    (List.mem_map_of_mem hr)
  simpa using Ne.symm hne

theorem Apart.lookup_of_waiting (h : s.Apart) {run : Run} (hrun : (number, run) ∈ s.waiting) :
    s.waiting.lookup number = some run :=
  lookup_of_mem (List.nodup_append.1 h.nodup).1 hrun

/-- Only requests that have begun have a number. -/
theorem Apart.lt_issued (h : s.Apart) {n : Nat}
    (hn : n ∈ s.waiting.map (·.1) ++ s.ended.map (·.1)) : n < s.issued :=
  List.mem_range.1 (h.numbers.mem_iff.1 hn)

/-- A waiting run is taken out of the list, which does not change otherwise. -/
theorem Apart.exists_split (h : s.Apart) (hrun : s.waiting.lookup number = some run) :
    ∃ before after, s.waiting = before ++ (number, run) :: after ∧
      (s.resumed number).waiting = before ++ after := by
  obtain ⟨before, after, heq, hbefore⟩ := List.lookup_eq_some_iff.1 hrun
  refine ⟨before, after, heq, ?_⟩
  have hnodup : (s.waiting.map (·.1)).Nodup :=
    (List.nodup_append.1 (h.numbers.nodup_iff.2 List.nodup_range)).1
  rw [heq, List.map_append, List.map_cons, List.nodup_append] at hnodup
  have hbefore' : ∀ e ∈ before, e.1 ≠ number := fun e he hn => by
    simpa [hn] using hbefore e he
  have hafter : ∀ e ∈ after, e.1 ≠ number := fun e he hn =>
    (List.nodup_cons.1 hnodup.2.1).1 (List.mem_map.2 ⟨e, he, hn⟩)
  have hkept (l : List (Nat × Run)) (hl : ∀ e ∈ l, e.1 ≠ number) :
      l.filter (fun e => decide (e.1 ≠ number)) = l :=
    List.filter_eq_self.2 fun e he => by simpa using hl e he
  simp only [resumed, heq, List.filter_append, List.filter_cons]
  rw [hkept before hbefore', hkept after hafter]
  simp

/-- A waiting run goes on. -/
theorem Apart.resume (h : s.Apart) (hrun : s.waiting.lookup number = some run) :
    OneOut (s.resumed number) number run.file? := by
  obtain ⟨before, after, heq, hres⟩ := h.exists_split hrun
  have hheld : s.held.Perm (run.file?.toList ++ (s.resumed number).held) := by
    unfold held
    rw [heq, hres, List.filterMap_append, List.filterMap_cons, List.filterMap_append]
    cases run.file? with
    | none => exact List.Perm.refl _
    | some file => exact List.perm_middle
  -- no file is held twice, so the file of the run is not among those of the others
  obtain ⟨-, hrest, hdisjoint⟩ := List.nodup_append.1 (hheld.nodup_iff.1 h.alone)
  refine ⟨?_, fun f => ?_, fun f hf hmem => ?_, hrest⟩
  · refine List.Perm.trans ?_ h.numbers
    rw [hres, heq]
    simp only [List.map_append, List.map_cons, List.append_assoc, List.cons_append]
    exact List.perm_middle.symm
  · exact (h.inFlight f).trans (by rw [hheld.mem_iff]; simp)
  · exact hdisjoint f (by simpa using hf) f hmem rfl

theorem held_record (s : Schedule) (number : Nat) (step : Step (Progress Run Answer)) :
    (s.record number step).1.held = s.held ++ (step.value.stake Run.stake).file.toList := by
  unfold record held
  dsimp only
  split
  next result hv => simp [hv]
  next run hv =>
    rw [hv, List.filterMap_append, Progress.stake_waiting, ← Run.file?]
    cases hf : run.file? <;> simp [hf]

/-- A run that has made its step is listed again, or its request has ended. -/
theorem OneOut.record {a : Stake} {step : Step (Progress Run Answer)}
    (h : s.OneOut number a.file)
    (hgoes : s.session.Goes a step.session step.events (step.value.stake Run.stake)) :
    (s.record number step).1.Apart := by
  have hold : ∀ f, f ∈ s.held → f ∉ a.file := fun f hf hown => h.alone f hown hf
  refine ⟨?_, fun f => ?_, ?_⟩
  · rw [issued_record]
    exact (numbers_record s number step).trans h.numbers
  · rw [held_record, session_record, hgoes.inFlight f, h.inFlight f, List.mem_append,
      Option.mem_toList]
    constructor
    · rintro (hf | ⟨hf | hf, hn⟩)
      · exact .inr hf
      · exact absurd hf hn
      · exact .inl hf
    · rintro (hf | hf)
      · exact .inr ⟨.inr hf, hold f hf⟩
      · exact .inl hf
  · -- a file taken by the step was free, unless it was the run's own
    rw [held_record, List.nodup_append]
    refine ⟨h.rest, by cases (step.value.stake Run.stake).file <;> simp, fun f hf g hg heq => ?_⟩
    subst heq
    have hmine := hgoes.fresh f (Option.mem_toList.1 hg) ((h.inFlight f).2 (.inr hf))
    exact h.alone f hmine hf

/-- A run that waits holds files in flight only. -/
theorem Apart.mem_inFlight (h : s.Apart) (hrun : s.waiting.lookup number = some run) :
    ∀ f ∈ run.stake.file, f ∈ s.session.inFlight := by
  intro f hf
  exact ((h.resume hrun).inFlight f).2 (.inl hf)

theorem Apart.goes_next (h : s.Apart) (hrun : s.waiting.lookup number = some run)
    (reply : Call → Reply) :
    s.session.Goes run.stake (run.next s.session reply).session
      (run.next s.session reply).events ((run.next s.session reply).value.stake Run.stake) :=
  Run.goes_next reply (h.mem_inFlight hrun)

/-- Every move keeps files apart. -/
theorem Apart.move (h : s.Apart) (m : Move) : (s.move m).1.Apart := by
  refine move_cases (motive := fun _ r => r.1.Apart) ?start ?next ?stay ?dispose ?document m
  case start =>
    intro request
    exact h.begin.record (s.session.quiet_request request).toGoes
  case next =>
    intro number reply run hrun _
    exact (h.resume hrun).record (h.goes_next hrun reply)
  case stay => exact fun _ _ _ => h
  case dispose => exact ⟨h.numbers, h.inFlight, h.alone⟩
  case document => exact fun _ _ => ⟨h.numbers, h.inFlight, h.alone⟩

/-! ### Which request a run belongs to -/

variable {opened : Session} {request : Request}

/-- A run that belongs to a request of the session `opened` holds a file that the request is about,
and what it may still turn to is about no others. -/
structure Serves (opened : Session) (request : Request) (run : Run) : Prop where
  named : ∀ f ∈ run.file?, ∃ p ∈ request.paths opened, opened.disk.canonical p = .ok f
  paths : run.stake.paths ⊆ request.paths opened

theorem paths_ground (h : opened.SameGround s.session) (request : Request) :
    request.paths s.session = request.paths opened := by
  cases request with
  | sweep =>
    simp only [Request.paths, Sweep.targets, Sweep.files, h.disk, h.settings, h.workspace, h.listed]
  | _ => rfl

/-- What a step leaves waiting serves the request that the step was made for. -/
theorem Serves.of_goes {a : Stake} {t : Session} {events : List Event}
    (hground : opened.SameGround s.session) (hgoes : s.session.Goes a t events run.stake)
    (hnamed : ∀ f ∈ a.file, ∃ p ∈ request.paths opened, opened.disk.canonical p = .ok f)
    (hpaths : a.paths ⊆ request.paths opened) : Serves opened request run := by
  refine ⟨fun f hf => ?_, fun p hp => hpaths (hgoes.paths hp)⟩
  rcases hgoes.named f hf with hown | ⟨p, hp, hc⟩
  · exact hnamed f hown
  · exact ⟨p, hpaths hp, by rw [← hground.disk]; exact hc⟩

/-- What holds after some moves in a session that was `opened`. -/
structure Traced (opened : Session) (moves : List Move) (s : Schedule) : Prop where
  apart : s.Apart
  ground : opened.SameGround s.session
  issued : s.issued = (Move.requests moves).length
  serves : ∀ e ∈ s.waiting, ∃ request, (Move.requests moves)[e.1]? = some request ∧
    Serves opened request e.2

/-- A run that has not moved still serves its request when more requests have begun. -/
theorem Traced.serves_concat {moves : List Move} (h : Traced opened moves s) (m : Move)
    {e : Nat × Run} (he : e ∈ s.waiting) :
    ∃ request, (Move.requests (moves ++ [m]))[e.1]? = some request ∧
      Serves opened request e.2 := by
  obtain ⟨request, hr, hserves⟩ := h.serves e he
  refine ⟨request, ?_, hserves⟩
  rw [requests_concat, List.getElem?_append_left (List.getElem?_eq_some_iff.1 hr).1]
  exact hr

theorem Traced.move {moves : List Move} (h : Traced opened moves s) (m : Move) :
    Traced opened (moves ++ [m]) (s.move m).1 := by
  have hapart := h.apart.move m
  have hserves := fun e (he : e ∈ s.waiting) => h.serves_concat m he
  revert hapart hserves
  refine move_cases (motive := fun m r => r.1.Apart →
    (∀ e ∈ s.waiting, ∃ request, (Move.requests (moves ++ [m]))[e.1]? = some request ∧
      Serves opened request e.2) → Traced opened (moves ++ [m]) r.1)
    ?start ?next ?stay ?dispose ?document m
  case start =>
    intro request hapart hserves
    have hgoes := (s.session.quiet_request request).toGoes
    refine ⟨hapart, ?_, ?_, fun e he => ?_⟩
    · rw [session_record]
      exact h.ground.trans hgoes.ground
    · rw [issued_record, requests_concat, h.issued]
      simp [Move.request?]
    rcases mem_waiting_record he with he | ⟨run, hv, rfl⟩
    · exact hserves e he
    · rw [hv] at hgoes
      refine ⟨request, by simp [requests_concat, h.issued, Move.request?], ?_⟩
      exact .of_goes h.ground hgoes (by simp) fun p hp => paths_ground h.ground request ▸ hp
  case next =>
    intro number reply run hrun _ hapart hserves
    have hgoes := h.apart.goes_next hrun reply
    refine ⟨hapart, ?_, ?_, fun e he => ?_⟩
    · rw [session_record]
      exact h.ground.trans hgoes.ground
    · rw [issued_record, requests_concat]
      exact h.issued.trans (by simp [Move.request?])
    rcases mem_waiting_record he with he | ⟨run', hv, rfl⟩
    · exact hserves e (List.mem_filter.1 he).1
    · rw [hv] at hgoes
      obtain ⟨before, after, heq, -⟩ := h.apart.exists_split hrun
      obtain ⟨request, hr, hown⟩ := hserves (number, run) (by simp [heq])
      exact ⟨request, hr, .of_goes h.ground hgoes hown.named hown.paths⟩
  case stay =>
    intro number reply _ hapart hserves
    exact ⟨hapart, h.ground, by simpa [requests_concat, Move.request?] using h.issued, hserves⟩
  case dispose =>
    intro hapart hserves
    have hg := h.ground
    exact ⟨hapart, ⟨hg.disk, hg.settings, hg.workspace, hg.pinned, hg.listed⟩,
      by simpa [requests_concat, Move.request?] using h.issued, hserves⟩
  case document =>
    intro name document hapart hserves
    have hg := h.ground
    exact ⟨hapart, ⟨hg.disk, hg.settings, hg.workspace, hg.pinned, hg.listed⟩,
      by simpa [requests_concat, Move.request?] using h.issued, hserves⟩

/-! ### What follows from files being kept apart -/

theorem mem_held {f : Path} : f ∈ s.held ↔ ∃ e ∈ s.waiting, e.2.file? = some f :=
  List.mem_filterMap

/-- Files of runs of the linter are held. -/
theorem processes_sublist (waiting : List (Nat × Run)) :
    ((waiting.filterMap (·.2.process?)).map (·.1)).Sublist (waiting.filterMap (·.2.file?)) := by
  induction waiting with
  | nil => exact .slnil
  | cons e rest ih =>
    rw [List.filterMap_cons, List.filterMap_cons]
    cases hp : e.2.process? with
    | none =>
      cases e.2.file? with
      | none => exact ih
      | some file => exact ih.cons file
    | some process =>
      rw [Run.file?_of_process? hp]
      exact ih.cons_cons _

/-- A file that is held once is held by one run. -/
theorem eq_of_held {waiting : List (Nat × Run)} (h : (waiting.filterMap (·.2.file?)).Nodup)
    {e e' : Nat × Run} (he : e ∈ waiting) (he' : e' ∈ waiting) (hf : e.2.file? = some f)
    (hf' : e'.2.file? = some f) : e = e' := by
  induction waiting with
  | nil => simp at he
  | cons first rest ih =>
    have hmem {d : Nat × Run} (hd : d ∈ rest) (hdf : d.2.file? = some f) :
        f ∈ rest.filterMap (·.2.file?) := List.mem_filterMap.2 ⟨d, hd, hdf⟩
    have hfirst (hff : first.2.file? = some f) : f ∉ rest.filterMap (·.2.file?) := by
      rw [List.filterMap_cons, hff] at h
      exact (List.nodup_cons.1 h).1
    have hrest : (rest.filterMap (·.2.file?)).Nodup :=
      h.sublist ((List.sublist_cons_self first rest).filterMap _)
    rcases List.mem_cons.1 he with hhead | htail
    · rcases List.mem_cons.1 he' with hhead' | htail'
      · exact hhead.trans hhead'.symm
      · exact absurd (hmem htail' hf') (hfirst (hhead ▸ hf))
    · rcases List.mem_cons.1 he' with hhead' | htail'
      · exact absurd (hmem htail hf) (hfirst (hhead' ▸ hf'))
      · exact ih hrest htail htail'

/-- A run of the linter that a step starts is waited for by the run that the step leaves. -/
theorem started_record {a : Stake} {step : Step (Progress Run Answer)} {c : Call}
    (hgoes : s.session.Goes a step.session step.events (step.value.stake Run.stake))
    (hc : Event.call c ∈ (s.record number step).2) :
    ∃ e ∈ (s.record number step).1.waiting, e.2.call? = some c := by
  rw [events_record] at hc
  have hcall : c ∈ step.events.filterMap Event.call? := List.mem_filterMap.2 ⟨_, hc, rfl⟩
  rw [hgoes.calls] at hcall
  unfold record
  dsimp only
  split
  next result hv =>
    rw [hv] at hcall
    simp at hcall
  next run hv =>
    rw [hv, Progress.stake_waiting, Run.stake_call, Option.mem_toList] at hcall
    exact ⟨(number, run), by simp, hcall⟩

theorem Apart.started (h : s.Apart) (m : Move) {c : Call} (hc : Event.call c ∈ (s.move m).2) :
    ∃ e ∈ (s.move m).1.waiting, e.2.call? = some c := by
  revert hc
  refine move_cases (motive := fun _ r => Event.call c ∈ r.2 →
    ∃ e ∈ r.1.waiting, e.2.call? = some c) ?start ?next ?stay ?dispose ?document m
  case start => exact fun request => started_record (s.session.quiet_request request).toGoes
  case next => exact fun number reply run hrun _ => started_record (h.goes_next hrun reply)
  case stay => simp
  case dispose => simp [Session.dispose]
  case document => simp

/-- Once all requests have ended, no run waits, and so no file is in flight. -/
theorem Apart.idle (h : s.Apart) (hended : ∀ n < s.issued, n ∈ s.ended.map (·.1)) :
    s.session.inFlight = [] := by
  -- every number belongs to a run that waits or to a request that has ended, never to both
  have hdisjoint := (List.nodup_append.1 (h.numbers.nodup_iff.2 List.nodup_range)).2.2
  have hwaiting : ∀ e, e ∉ s.waiting := by
    intro e he
    have hmem : e.1 ∈ s.waiting.map (·.1) := List.mem_map_of_mem he
    have hlt : e.1 < s.issued :=
      List.mem_range.1 (h.numbers.mem_iff.1 (List.mem_append_left _ hmem))
    exact hdisjoint e.1 hmem e.1 (hended e.1 hlt) rfl
  refine List.eq_nil_iff_forall_not_mem.2 fun f hf => ?_
  obtain ⟨e, he, -⟩ := mem_held.1 ((h.inFlight f).1 hf)
  exact hwaiting e he

/-! ### Any moves -/

theorem traced_play (h : opened.inFlight = []) (moves : List Move) :
    Traced opened moves (({ session := opened } : Schedule).play moves).1 := by
  refine play_induction (motive := fun moves s _ => Traced opened moves s) ?_ ?_ moves
  · exact ⟨⟨by simp, by simp [held, h], by simp [held]⟩, .refl opened, rfl, by simp⟩
  · exact fun moves m h => h.move m

/-- What holds of the files in flight, whatever has happened since the session was `opened`;
`requests` are those that have begun. -/
structure Guarded (opened : Session) (requests : List Request) (s : Schedule) : Prop where
  /-- No two runs of the linter over one file are alive. -/
  processes : (s.processes.map (·.1)).Nodup
  /-- A file is in flight if and only if some run holds it. -/
  inFlight : ∀ f, f ∈ s.session.inFlight ↔ ∃ e ∈ s.waiting, e.2.file? = some f
  /-- No other run holds the same file. -/
  owner : ∀ e ∈ s.waiting, ∀ e' ∈ s.waiting, ∀ f, e.2.file? = some f → e'.2.file? = some f → e = e'
  /-- A run holds the canonical path of a file that its request is about. -/
  named : ∀ e ∈ s.waiting, ∀ f, e.2.file? = some f → ∃ request, requests[e.1]? = some request ∧
    ∃ p ∈ request.paths opened, opened.disk.canonical p = .ok f
  linting : ∀ p f, opened.disk.canonical p = .ok f → ∃ b, s.session.isLinting p = .ok b ∧
    (b = true ↔ ∃ e ∈ s.waiting, e.2.file? = some f)
  /-- A lint request that is not skipped is refused while its file is in flight. -/
  refusesLint : ∀ p notify f, opened.disk.canonical p = .ok f → s.session.isActive →
    ¬ f.hasVcsPart → f ∈ s.session.inFlight →
    s.session.request (.lint p notify) = ⟨s.session, [], .ended (.ok (.outcome .inFlight))⟩
  /-- So is a request to fix the file. -/
  refusesFix : ∀ p f, opened.disk.canonical p = .ok f → f ∈ s.session.inFlight →
    s.session.request (.fixFile p) = ⟨s.session, [], .ended (.ok (.fixed false))⟩
  /-- A run of the linter that is started is waited for. -/
  started : ∀ m c, Event.call c ∈ (s.move m).2 →
    ∃ e ∈ (s.move m).1.waiting, e.2.call? = some c
  /-- Once every request has ended, no file is in flight. -/
  idle : (∀ n < requests.length, n ∈ s.ended.map (·.1)) → s.session.inFlight = []

theorem Traced.guarded {moves : List Move} (h : Traced opened moves s) :
    Guarded opened (Move.requests moves) s := by
  have hdisk := h.ground.disk
  have hheld : ∀ f, f ∈ s.session.inFlight ↔ ∃ e ∈ s.waiting, e.2.file? = some f :=
    fun f => (h.apart.inFlight f).trans mem_held
  refine ⟨?processes, hheld, ?owner, ?named, ?linting, ?refusesLint, ?refusesFix, ?started, ?idle⟩
  case processes => exact h.apart.alone.sublist (processes_sublist s.waiting)
  case owner => exact fun e he e' he' f hf hf' => eq_of_held h.apart.alone he he' hf hf'
  case named =>
    intro e he f hf
    obtain ⟨request, hr, hserves⟩ := h.serves e he
    exact ⟨request, hr, hserves.named f hf⟩
  case linting =>
    intro p f hc
    refine ⟨s.session.inFlight.contains f, ?_, ?_⟩
    · rw [Session.isLinting, hdisk, hc]
      rfl
    · rw [List.contains_iff_mem]
      exact hheld f
  case refusesLint =>
    intro p notify f hc hactive hvcs hf
    rw [← hdisk] at hc
    have hvcs : f.hasVcsPart = false := by simpa using hvcs
    have hin : s.session.inFlight.contains f = true := List.contains_iff_mem.2 hf
    simp only [Session.request, Session.lint, Lint.start, hc, hactive, hvcs, hin]
    rfl
  case refusesFix =>
    intro p f hc hf
    rw [← hdisk] at hc
    have hin : s.session.inFlight.contains f = true := List.contains_iff_mem.2 hf
    simp only [Session.request, FileFix.start, hc, hin]
    rfl
  case started => exact fun m c hc => h.apart.started m hc
  case idle => exact fun hended => h.apart.idle (h.issued ▸ hended)

/-- Whatever requests a session is given, in whatever order their runs go on, and whatever the
linter replies, files in flight are guarded. -/
theorem guarded_play {disk : Disk} {settings : Settings} {root : Option Path}
    {pinned : Option Format} {listed : Option (List Path)} {session : Session}
    (h : Session.opened disk settings root pinned listed = .ok session) (moves : List Move) :
    Guarded session (Move.requests moves) (({ session } : Schedule).play moves).1 := by
  obtain ⟨workspace, -, rfl⟩ := Session.opened_eq_ok h
  exact (traced_play rfl moves).guarded

/-- A file is to be linted and fixed at the same time. -/
theorem guarded_play_lint_and_fix : ∃ session,
    Session.opened { tree := .directory [], current := [], homes := [] } {} none (some .legacy) =
        .ok session ∧
      Guarded session [.lint ⟨.root, ["a.nu"]⟩, .fixFile ⟨.root, ["a.nu"]⟩]
        (({ session } : Schedule).play
          [.start (.lint ⟨.root, ["a.nu"]⟩), .start (.fixFile ⟨.root, ["a.nu"]⟩)]).1 := by
  have hopened : Session.opened { tree := .directory [], current := [], homes := [] } {} none
      (some .legacy) = .ok
        { disk := { tree := .directory [], current := [], homes := [] }
          pinned := some .legacy } := rfl
  exact ⟨_, hopened, guarded_play hopened
    [.start (.lint ⟨.root, ["a.nu"]⟩), .start (.fixFile ⟨.root, ["a.nu"]⟩)]⟩

end Schedule

end LintBridge
