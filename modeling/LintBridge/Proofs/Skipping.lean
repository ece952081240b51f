import LintBridge.Proofs.Atomicity

/-!
# LintBridge.Proofs.Skipping

Which documents the reactions to the editor's events pass over. A document is excluded when the
session has been disposed of or is disabled, when it is no file or no script, or when its file lies
below the directory of version control (`Session.Excludes`). Linting heeds all of this. Fixing a
file does not, and the reaction to a saved document that is to be fixed first has a check of its own
for half of it only (`Session.FixesFirst`). So an excluded document may be fixed on the disk when it
is saved, and this is the only way in which a reaction starts a run of the linter for it. Besides,
where a file lies is found out before anything else is looked at, so a path that cannot be resolved
ends the reaction with a fault (`Session.Unresolvable`).

Main result: `Schedule.skips_play_iff`, for excluded documents in any session.
-/

namespace LintBridge

/-- An event of the editor that a session reacts to. -/
inductive Hook where
  | opened
  | saved
  | changed
  deriving DecidableEq, Repr

namespace Hook

/-- The request by which a session reacts to an event of a document. -/
def request : Hook → Buffer → Request
  | opened, document => .opened document
  | saved, document => .saved document
  | changed, document => .changed document

/-- Whether the file of a document is turned to, if it is a script. -/
def isHeeded (settings : Settings) : Hook → Bool
  | opened => settings.lintOnOpen
  | saved => settings.lintOnSave || settings.fixOnSave && settings.enable
  | changed => settings.lintOnType

end Hook

namespace Session

variable {s t : Session} {document : Buffer} {hook : Hook}

/-- A document of a script that is not to be linted. -/
def Spares (s : Session) (document : Buffer) : Prop :=
  s.disposed = true ∨ s.settings.enable = false ∨ document.isFile = false ∨
    ∃ file, s.disk.canonical document.path = .ok file ∧ file.hasVcsPart = true

/-- A document that the reactions to its events are to pass over. -/
def Excludes (s : Session) (document : Buffer) : Prop :=
  s.Spares document ∨ isScriptLanguage document.languageId = false

/-- The document is a file at a path that cannot be resolved. -/
def Unresolvable (s : Session) (document : Buffer) : Prop :=
  document.isFile = true ∧ ∃ fault, s.disk.canonical document.path = .error fault

/-- Linting passes over the document. -/
def Overlooks (s : Session) (document : Buffer) : Prop :=
  s.Spares document ∧ ¬ s.Unresolvable document

/-- The file of the document is fixed on the disk when the document is saved. Neither whether the
session has been disposed of nor where the file lies comes into it. -/
def FixesFirst (s : Session) (document : Buffer) : Prop :=
  s.settings.fixOnSave = true ∧ s.settings.enable = true ∧ document.isFile = true ∧
    isScriptLanguage document.languageId = true ∧
    ∃ file, s.disk.canonical document.path = .ok file ∧ file ∉ s.inFlight

/-- What keeps the reaction to an event from passing over an excluded document. -/
def ActsOn (s : Session) (hook : Hook) (document : Buffer) : Prop :=
  hook = .saved ∧ s.FixesFirst document ∨
    hook.isHeeded s.settings = true ∧ isScriptLanguage document.languageId = true ∧
      s.Unresolvable document

/-! ### Linting a document -/

theorem Overlooks.of_ground (h : s.Overlooks document) (hground : s.SameGround t)
    (hdisposed : s.disposed = true → t.disposed = true) : t.Overlooks document := by
  unfold Overlooks Spares Unresolvable
  rw [hground.settings, hground.disk]
  exact ⟨h.1.imp_left hdisposed, h.2⟩

theorem Overlooks.lintDocument (h : s.Overlooks document) :
    s.lintDocument document = s.answer (.outcome .skipped) := by
  obtain ⟨hspares, hpath⟩ := h
  unfold Session.lintDocument
  split
  next hfile =>
    cases hc : s.disk.canonical document.path with
    | error fault => exact absurd ⟨hfile, fault, hc⟩ hpath
    | ok file =>
      have hskip : (!s.isActive || file.hasVcsPart) = true := by
        rcases hspares with hdisposed | henable | hnofile | ⟨file', hc', hvcs⟩
        · simp [isActive, hdisposed]
        · simp [isActive, henable]
        · simp [hfile] at hnofile
        · obtain rfl := Except.ok.inj (hc.symm.trans hc')
          simp [hvcs]
      simp only [lint, Lint.start, hc, hskip]
      rfl
  next => rfl

/-- A path that cannot be resolved is a fault, whether the document is spared or not. -/
theorem Unresolvable.lintDocument (h : s.Unresolvable document) :
    ∃ fault, s.lintDocument document = ⟨s, [], .ended (.error (.fault fault))⟩ := by
  obtain ⟨hfile, fault, hc⟩ := h
  refine ⟨fault, ?_⟩
  simp only [Session.lintDocument, hfile, lint, Lint.start, hc]
  rfl

/-! ### Reacting to an event -/

/-- Once a reaction that does not act on an excluded document turns to its file, linting passes over
the document. -/
theorem Excludes.overlooks (h : s.Excludes document) (hacts : ¬ s.ActsOn hook document)
    (hlanguage : isScriptLanguage document.languageId = true)
    (hheeded : hook.isHeeded s.settings = true) : s.Overlooks document :=
  ⟨h.resolve_right (by simp [hlanguage]), fun hpath => hacts (.inr ⟨hheeded, hlanguage, hpath⟩)⟩

/-- A fix that is not let in is refused, as its file is in flight. -/
theorem fix_refused (hfix : ¬ s.FixesFirst document) (hon : s.settings.fixOnSave = true)
    (henable : s.settings.enable = true) (hfile : document.isFile = true)
    (hlanguage : isScriptLanguage document.languageId = true) (hpath : ¬ s.Unresolvable document) :
    FileFix.start s document.path = ⟨s, [], .ended (.ok false)⟩ := by
  cases hc : s.disk.canonical document.path with
  | error fault => exact absurd ⟨hfile, fault, hc⟩ hpath
  | ok file =>
    have hin : file ∈ s.inFlight := by
      by_contra hout
      exact hfix ⟨hon, henable, hfile, hlanguage, file, hc, hout⟩
    simp [FileFix.start, hc, hin]

/-- The reaction to the saving of an excluded document that it does not act on. -/
theorem Excludes.saving (h : s.Excludes document) (hacts : ¬ s.ActsOn .saved document) :
    s.saving document = s.answer (.outcome .skipped) := by
  have hfix : ¬ s.FixesFirst document := fun hfix => hacts (.inl ⟨rfl, hfix⟩)
  unfold Session.saving
  split
  · rfl
  next hlanguage =>
    simp only [Bool.not_eq_true', Bool.not_eq_false] at hlanguage
    have hlint : s.lintSaved document = s.answer (.outcome .skipped) := by
      unfold lintSaved
      split
      next hon => exact (h.overlooks hacts hlanguage (by simp [Hook.isHeeded, hon])).lintDocument
      next => rfl
    split
    next hsettings =>
      obtain ⟨⟨hon, henable⟩, hfile⟩ := by simpa only [Bool.and_eq_true] using hsettings
      have hoverlooks : s.Overlooks document :=
        h.overlooks hacts hlanguage (by simp [Hook.isHeeded, hon, henable])
      rw [fix_refused hfix hon henable hfile hlanguage hoverlooks.2]
      exact hlint
    next => exact hlint

/-- The reaction to an event of an excluded document that it does not act on: the request is
skipped at once, or after a pause. -/
theorem Excludes.request (h : s.Excludes document) (hacts : ¬ s.ActsOn hook document) :
    s.request (hook.request document) = s.answer (.outcome .skipped) ∨
      s.Overlooks document ∧ s.request (hook.request document) =
        ⟨s, [.pause s.settings.debounceSeconds], .waiting (.pause document)⟩ := by
  cases hook with
  | opened =>
    simp only [Hook.request, Session.request, opening]
    split
    next hcond =>
      obtain ⟨hheeded, hlanguage⟩ := by simpa only [Bool.and_eq_true] using hcond
      exact .inl (h.overlooks hacts hlanguage hheeded).lintDocument
    next => exact .inl rfl
  | saved => exact .inl (h.saving hacts)
  | changed =>
    simp only [Hook.request, Session.request, changing]
    split
    next hcond =>
      obtain ⟨hheeded, hlanguage⟩ := by simpa only [Bool.and_eq_true] using hcond
      exact .inr ⟨h.overlooks hacts hlanguage hheeded, rfl⟩
    next => exact .inl rfl

/-- A reaction that acts on a document does one of three things at once. -/
inductive Reacts (s : Session) (document : Buffer) : Step (Progress Run Answer) → Prop where
  /-- It starts the linter, to fix the file. -/
  | calls (t : Session) (call : Call) (run : Run) :
      Reacts s document ⟨t, [.call call], .waiting run⟩
  | faults (fault : Fault) : Reacts s document ⟨s, [], .ended (.error (.fault fault))⟩
  /-- It waits for a pause before a fault comes up. -/
  | pauses (events : List Event) (hpath : s.Unresolvable document) :
      Reacts s document ⟨s, events, .waiting (.pause document)⟩

/-- The reaction to the saving of a document whose file is fixed first begins with the fix. -/
theorem FixesFirst.saving_eq (h : s.FixesFirst document) :
    s.saving document = savedAfter document (FileFix.start s document.path) := by
  obtain ⟨hfix, henable, hfile, hlanguage, -⟩ := h
  simp [Session.saving, hfix, henable, hfile, hlanguage]

theorem FixesFirst.saving (h : s.FixesFirst document) : s.Reacts document (s.saving document) := by
  rw [h.saving_eq]
  obtain ⟨-, -, -, -, file, hc, hout⟩ := h
  unfold FileFix.start
  rw [hc]
  dsimp only
  rw [if_neg (by simpa using hout)]
  cases Command.fix s.disk s.settings s.workspace file with
  | error fault => exact .faults fault
  | ok command => exact .calls _ _ _

/-- The reaction to an event of a document whose path cannot be resolved. -/
theorem Unresolvable.request (h : s.Unresolvable document)
    (hlanguage : isScriptLanguage document.languageId = true)
    (hheeded : hook.isHeeded s.settings = true) :
    s.Reacts document (s.request (hook.request document)) := by
  obtain ⟨fault, hlint⟩ := h.lintDocument
  cases hook with
  | opened =>
    have hon : s.settings.lintOnOpen = true := hheeded
    simp only [Hook.request, Session.request, opening, hon, hlanguage, hlint]
    exact .faults fault
  | changed =>
    have hon : s.settings.lintOnType = true := hheeded
    simp only [Hook.request, Session.request, changing, hon, hlanguage]
    exact .pauses _ h
  | saved =>
    obtain ⟨hfile, fault', hc⟩ := h
    have hrefused : FileFix.start s document.path = ⟨s, [], .ended (.error (.fault fault'))⟩ := by
      simp only [FileFix.start, hc]
    simp only [Hook.request, Session.request, Session.saving, hlanguage, hfile]
    by_cases hfix : (s.settings.fixOnSave && s.settings.enable) = true
    · simp only [hfix, hrefused]
      exact .faults fault'
    · have hon : s.settings.lintOnSave = true := by
        simpa [Hook.isHeeded, hfix] using hheeded
      simp only [hfix, lintSaved, hon, hlint]
      exact .faults fault

theorem ActsOn.request (h : s.ActsOn hook document) :
    s.Reacts document (s.request (hook.request document)) := by
  rcases h with ⟨rfl, hfixes⟩ | ⟨hheeded, hlanguage, hpath⟩
  · exact hfixes.saving
  · exact hpath.request hlanguage hheeded

end Session

namespace Schedule

variable {s : Schedule} {number : Nat} {document : Buffer} {hook : Hook}

/-! ### What a request starts -/

/-- Whether a move is a step of the request with a number. -/
def isStepOf (s : Schedule) (number : Nat) : Move → Bool
  | .start _ => s.issued = number
  | .next n _ => n = number
  | .dispose | .document .. => false

/-- The runs of the linter that the request with a number starts during some moves. -/
def callsOf (s : Schedule) (number : Nat) : List Move → List Call
  | [] => []
  | m :: rest =>
    (if s.isStepOf number m then (s.move m).2.filterMap Event.call? else []) ++
      (s.move m).1.callsOf number rest

/-- The document of a request is being passed over: the request has been skipped, or it will be as
soon as it goes on. -/
structure PassesOver (s : Schedule) (number : Nat) (document : Buffer) : Prop where
  apart : s.Apart
  skipped : (number, .ok (.outcome .skipped)) ∈ s.ended ∨
    (number, .pause document) ∈ s.waiting ∧ s.session.Overlooks document

theorem PassesOver.lt_issued (h : s.PassesOver number document) : number < s.issued := by
  refine h.apart.lt_issued (List.mem_append.2 ?_)
  rcases h.skipped with hended | ⟨hwaiting, -⟩
  · exact .inr (List.mem_map.2 ⟨_, hended, rfl⟩)
  · exact .inl (List.mem_map.2 ⟨_, hwaiting, rfl⟩)

/-- The only step that is left of the request. -/
theorem move_pause (h : s.Apart) (hrun : (number, .pause document) ∈ s.waiting)
    (reply : Call → Reply) : s.move (.next number reply) =
      (s.resumed number).record number (s.session.lintDocument document) := by
  have hgo : s.mayGoOn number (.pause document) = true := rfl
  simp only [move, h.lookup_of_waiting hrun, hgo]
  rfl

/-- A move of another request leaves the request where it is. -/
theorem PassesOver.of_step {s' : Schedule} {n : Nat} {a : Stake}
    {step : Step (Progress Run Answer)} (h : s.PassesOver number document) (hn : n ≠ number)
    (hended : s'.ended = s.ended)
    (hwaiting : ∀ e ∈ s.waiting, e.1 ≠ n → e ∈ s'.waiting)
    (hgoes : s.session.Goes a step.session step.events (step.value.stake Run.stake))
    (hapart : (s'.record n step).1.Apart) : (s'.record n step).1.PassesOver number document := by
  refine ⟨hapart, h.skipped.imp (fun hskipped => ?_) fun ⟨hrun, hoverlooks⟩ => ⟨?_, ?_⟩⟩
  · exact ended_record (hended ▸ hskipped)
  · exact waiting_record (hwaiting _ hrun hn.symm)
  · rw [session_record]
    exact hoverlooks.of_ground hgoes.ground fun hd => hgoes.disposed.trans hd

/-- Whatever happens, the document goes on being passed over, and no run of the linter is started
for it. -/
theorem PassesOver.move (h : s.PassesOver number document) (m : Move) :
    (s.move m).1.PassesOver number document ∧
      (s.isStepOf number m = true → (s.move m).2.filterMap Event.call? = []) := by
  have hapart := h.apart.move m
  revert hapart
  refine move_cases (motive := fun m r => r.1.Apart → r.1.PassesOver number document ∧
    (s.isStepOf number m = true → r.2.filterMap Event.call? = []))
    ?start ?next ?stay ?dispose ?document m
  case start =>
    intro request hapart
    have hne : s.issued ≠ number := Nat.ne_of_gt h.lt_issued
    refine ⟨?_, fun hstep => absurd (by simpa [isStepOf] using hstep) hne⟩
    exact h.of_step hne rfl (fun e he _ => he) (s.session.quiet_request request).toGoes hapart
  case next =>
    intro n reply run hrun _ hapart
    by_cases hn : n = number
    · subst hn
      -- it is the request itself that goes on, so it has not ended yet
      rcases h.skipped with hended | ⟨hpause, hoverlooks⟩
      · simp [h.apart.lookup_of_ended hended] at hrun
      obtain rfl : run = .pause document :=
        Option.some.inj (hrun.symm.trans (h.apart.lookup_of_waiting hpause))
      have hnext : Run.next s.session reply (.pause document) =
          s.session.answer (.outcome .skipped) := hoverlooks.lintDocument
      rw [hnext] at hapart ⊢
      refine ⟨⟨hapart, .inl (result_record rfl)⟩, fun _ => ?_⟩
      rw [events_record]
      rfl
    · refine ⟨?_, fun hstep => absurd (by simpa [isStepOf] using hstep) hn⟩
      exact h.of_step hn rfl (fun e he hne => List.mem_filter.2 ⟨he, by simpa using hne⟩)
        (h.apart.goes_next hrun reply) hapart
  case stay => exact fun n reply _ _ => ⟨h, fun _ => rfl⟩
  case dispose =>
    intro hapart
    refine ⟨⟨hapart, ?_⟩, fun hstep => absurd hstep (by simp [isStepOf])⟩
    exact h.skipped.imp_right fun ⟨hrun, hoverlooks⟩ => ⟨hrun, .inl rfl, hoverlooks.2⟩
  case document => exact fun name buffer hapart => ⟨⟨hapart, h.skipped⟩, fun _ => rfl⟩

theorem PassesOver.play (h : s.PassesOver number document) (moves : List Move) :
    (s.play moves).1.PassesOver number document ∧ s.callsOf number moves = [] := by
  induction moves generalizing s with
  | nil => exact ⟨h, rfl⟩
  | cons m rest ih =>
    obtain ⟨hmove, hcalls⟩ := h.move m
    obtain ⟨hrest, hlater⟩ := ih hmove
    refine ⟨hrest, ?_⟩
    rw [callsOf, hlater, List.append_nil]
    split
    next hstep => exact hcalls hstep
    next => rfl

/-! ### Requests that are skipped -/

/-- A request that begins in a state is skipped, whatever happens `later`, and starts no run of the
linter. -/
structure Skips (s : Schedule) (request : Request) (later : List Move) : Prop where
  calls : s.callsOf s.issued (.start request :: later) = []
  result : ∀ result, (s.issued, result) ∈ (s.play (.start request :: later)).1.ended →
    result = .ok (.outcome .skipped)
  /-- The request ends, at the latest when it goes on. -/
  ends : ∀ reply, (s.issued, .ok (.outcome .skipped)) ∈
    ((s.play (.start request :: later)).1.move (.next s.issued reply)).1.ended

theorem PassesOver.ends (h : s.PassesOver number document) (reply : Call → Reply) :
    (number, .ok (.outcome .skipped)) ∈ (s.move (.next number reply)).1.ended := by
  rcases h.skipped with hended | ⟨hrun, hoverlooks⟩
  · exact ended_move _ hended
  · rw [move_pause h.apart hrun, hoverlooks.lintDocument]
    exact result_record rfl

/-- A request whose document is passed over from its start is skipped. -/
theorem PassesOver.skips {request : Request}
    (h : (s.move (.start request)).1.PassesOver s.issued document)
    (hcalls : (s.move (.start request)).2.filterMap Event.call? = []) (later : List Move) :
    s.Skips request later := by
  obtain ⟨hlater, hnone⟩ := h.play later
  refine ⟨?_, fun result hresult => ?_, hlater.ends⟩
  · rw [callsOf, hnone, hcalls]
    simp
  · rcases hlater.skipped with hskipped | ⟨hrun, -⟩
    · exact hlater.apart.result_unique hresult hskipped
    · have hlookup := hlater.apart.lookup_of_ended hresult
      rw [hlater.apart.lookup_of_waiting hrun] at hlookup
      simp at hlookup

/-- The reaction to an event of an excluded document that it does not act on is skipped. -/
theorem Apart.skips (h : s.Apart) (hexcludes : s.session.Excludes document)
    (hacts : ¬ s.session.ActsOn hook document) (later : List Move) :
    s.Skips (hook.request document) later := by
  have hapart := h.move (.start (hook.request document))
  refine @PassesOver.skips s document _ ⟨hapart, ?_⟩ ?_ later
  · simp only [Schedule.move]
    rcases hexcludes.request hacts with hstep | ⟨hoverlooks, hstep⟩
    · rw [hstep]
      exact .inl (result_record rfl)
    · rw [hstep]
      exact .inr ⟨by simp [record], hoverlooks⟩
  · simp only [Schedule.move, events_record]
    rcases hexcludes.request hacts with hstep | ⟨-, hstep⟩
    · rw [hstep]
      rfl
    · rw [hstep]
      rfl

/-- A document at a path that cannot be resolved is not passed over after a pause. -/
theorem Apart.faults_of_pause (h : s.Apart) (hrun : (number, .pause document) ∈ s.waiting)
    (hpath : s.session.Unresolvable document) (reply : Call → Reply) :
    (number, .ok (.outcome .skipped)) ∉ (s.move (.next number reply)).1.ended := by
  intro hskipped
  obtain ⟨fault, hlint⟩ := hpath.lintDocument
  have hfault : (number, .error (.fault fault)) ∈ (s.move (.next number reply)).1.ended := by
    rw [move_pause h hrun, hlint]
    exact result_record rfl
  have heq := (h.move (.next number reply)).result_unique hskipped hfault
  simp at heq

/-- A reaction that acts on its document is not skipped, even if nothing else happens. -/
theorem Apart.not_skips (h : s.Apart) (hacts : s.session.ActsOn hook document) :
    ¬ s.Skips (hook.request document) [] := by
  rintro ⟨hcalls, hresult, hends⟩
  have hmove : s.move (.start (hook.request document)) =
      record { s with issued := s.issued + 1 } s.issued
        (s.session.request (hook.request document)) := rfl
  have hplay : (s.play [.start (hook.request document)]).1 =
      (s.move (.start (hook.request document))).1 := rfl
  rw [hplay] at hresult hends
  simp only [callsOf, isStepOf, decide_true, if_true, List.append_nil] at hcalls
  have hreacts := hacts.request
  generalize s.session.request (hook.request document) = step at hmove hreacts
  cases hreacts with
  | calls t call run => simp [hmove, events_record, Event.call?] at hcalls
  | faults fault =>
    have hfault := hresult (.error (.fault fault)) (by rw [hmove]; exact result_record rfl)
    simp at hfault
  | pauses events hpath =>
    have hapart := h.move (.start (hook.request document))
    rw [hmove] at hapart hends
    have hrun : (s.issued, .pause document) ∈ (record { s with issued := s.issued + 1 } s.issued
        ⟨s.session, events, .waiting (.pause document)⟩).1.waiting := by simp [record]
    refine hapart.faults_of_pause hrun ?_ (fun _ => .ok ⟨[], 0, "", ""⟩) (hends _)
    rw [session_record]
    exact hpath

/-- Whatever has happened in a session, the reaction to an event of an excluded document is skipped
and starts no run of the linter, unless it fixes the file first or the path cannot be resolved. -/
theorem skips_play_iff {disk : Disk} {settings : Settings} {root : Option Path}
    {pinned : Option Format} {listed : Option (List Path)} {session : Session}
    (h : Session.opened disk settings root pinned listed = .ok session) (moves : List Move)
    (hook : Hook) (document : Buffer) :
    let s := (({ session } : Schedule).play moves).1
    s.session.Excludes document →
      ((∀ later, s.Skips (hook.request document) later) ↔ ¬ s.session.ActsOn hook document) := by
  intro s hexcludes
  obtain ⟨workspace, -, rfl⟩ := Session.opened_eq_ok h
  have hapart : s.Apart := (traced_play rfl moves).apart
  constructor
  · exact fun hskips hacts => hapart.not_skips hacts (hskips [])
  · exact fun hacts later => hapart.skips hexcludes hacts later

end Schedule

namespace Sample

/-- A session that lints documents while they are typed. -/
def typing : Session :=
  { disk, settings := { lintOnType := true }, workspace := some root, pinned := some .ranged }

def script : Buffer := { path := file, uri := "file:///ws/a.nu", content := .ofText [] }

theorem opened_typing :
    Session.opened disk { lintOnType := true } (some root) (some .ranged) = .ok typing := by
  simp [Session.opened, canonical_root, typing]

/-- A document is changed after the session has been disposed of. -/
theorem skips_play_iff_disposed : let s := (({ session := typing } : Schedule).play [.dispose]).1
    s.session.Excludes script ∧ ((∀ later, s.Skips (.changed script) later) ↔
      ¬ s.session.ActsOn .changed script) ∧ ¬ s.session.ActsOn .changed script := by
  have hexcludes : (({ session := typing } : Schedule).play [.dispose]).1.session.Excludes script :=
    .inl (.inl rfl)
  refine ⟨hexcludes, Schedule.skips_play_iff opened_typing [.dispose] .changed script hexcludes, ?_⟩
  rintro (⟨hhook, -⟩ | ⟨-, -, -, fault, hfault⟩)
  · simp at hhook
  · have hok := canonical_file.symm.trans hfault
    simp at hok

/-- A session that fixes files when they are saved. -/
def fixing : Session :=
  { disk, settings := { fixOnSave := true }, workspace := some root, pinned := some .ranged }

/-- A script below the directory of version control. -/
def hidden : Path := ⟨.root, ["ws", ".git", "hooks", "pre-commit.nu"]⟩

def hiddenScript : Buffer :=
  { path := hidden, uri := "file:///ws/.git/hooks/pre-commit.nu", content := .ofText [] }

theorem canonical_hidden : disk.canonical hidden = .ok hidden :=
  canonical_plain rfl (by simp [hidden, Node.IsName, Path.counts]) (by simp [hidden, Path.NulFree])

theorem fixesFirst_hidden : fixing.FixesFirst hiddenScript :=
  ⟨rfl, rfl, by decide +kernel, by decide, hidden, canonical_hidden, by simp [fixing]⟩

/-- The run of the linter that fixes the script. -/
def hiddenFix : Call where
  executable := "nu-lint"
  args := ["--fix", ".git/hooks/pre-commit.nu"]
  directory := some root
  timeout := some (.ofInt 30)

theorem start_hidden : FileFix.start fixing hidden =
    ⟨fixing.enter hidden, [.call hiddenFix], .waiting ⟨hidden, hiddenFix⟩⟩ := by
  have hwithin : hidden.within? root = some ".git/hooks/pre-commit.nu" := by decide
  have hinvocation :
      disk.invocation hidden (some root) = .ok ⟨root, ".git/hooks/pre-commit.nu"⟩ := by
    simp [Disk.invocation, canonical_hidden, canonical_root, hwithin]
  simp [FileFix.start, fixing, canonical_hidden, Command.fix, hinvocation, Command.configArgs,
    Command.call, Command.fixOption, hiddenFix]

/-- The linter is started to fix an excluded document. -/
theorem fixes_excluded_document :
    Session.opened disk { fixOnSave := true } (some root) (some .ranged) = .ok fixing ∧
      fixing.Excludes hiddenScript ∧ hidden.hasVcsPart = true ∧
      (({ session := fixing } : Schedule).move (.start (.saved hiddenScript))).2 =
        [.call hiddenFix] := by
  have hvcs : hidden.hasVcsPart = true := by decide
  refine ⟨?_, .inl (.inr (.inr (.inr ⟨hidden, canonical_hidden, hvcs⟩))), hvcs, ?_⟩
  · simp [Session.opened, canonical_root, fixing]
  · have hstart : FileFix.start fixing hiddenScript.path =
        ⟨fixing.enter hidden, [.call hiddenFix], .waiting ⟨hidden, hiddenFix⟩⟩ := start_hidden
    simp only [Schedule.move, Session.request, fixesFirst_hidden.saving_eq, hstart,
      Session.savedAfter, Schedule.record]

end Sample

end LintBridge
