import LintBridge.Proofs.Carrying
import LintBridge.Proofs.NormalForm
import LintBridge.Proofs.Sweeping

/-!
# LintBridge.Proofs.Verdicts

What comes of linting files one after another, told from the linter's replies alone. `Lint.verdict`
reads off a reply whether the lint of a file fails or which diagnostics it leaves on show, without
any session; `settles_start` is about one file and `Lints.of_verdicts` about a list of them. Only
the first file that is linted at all has the linter asked for its version.
-/

namespace LintBridge

/-- What comes of linting a file: the linter fails, or diagnostics are shown. -/
inductive Verdict where
  | failed
  | completed (file : Path) (diagnostics : List Diagnostic)
  deriving DecidableEq

namespace Verdict

def outcome : Verdict → Outcome
  | failed => .failed
  | completed .. => .completed

/-- What is published. -/
def published : Verdict → List Event
  | failed => []
  | completed file diagnostics => [.publish file diagnostics]

theorem failed_eq_outcome {v : Verdict} : .failed = v.outcome ↔ .failed = v := by
  cases v <;> simp [outcome]

end Verdict

theorem Event.quiet_of_isNotice {events : List Event} (h : ∀ e ∈ events, e.isNotice) :
    events.filterMap call? = [] ∧ events.filter (!·.isSilent) = [] := by
  refine ⟨filterMap_call?_of_isNotice h, List.filter_eq_nil_iff.2 fun e he => ?_⟩
  simp [isSilent_of_isNotice (h e he)]

/-- Calls are no part of what is shown. -/
theorem Event.of_calls {events shown : List Event} (calls : List Call)
    (hquiet : events.filterMap call? = []) (hshown : events.filter (!·.isSilent) = shown) :
    (calls.map call ++ events).filterMap call? = calls ∧
      (calls.map call ++ events).filter (!·.isSilent) = shown := by
  constructor
  · simp [List.filterMap_append, call?, hquiet, Function.comp_def]
  · rw [List.filter_append, hshown, List.filter_eq_nil_iff.2 (by simp [isSilent]), List.nil_append]

namespace Lint

open Session

/-- What the linter's reply for a file means. A fault comes up if the reply is one, if its output
cannot be read, or if a path that it names cannot be resolved. -/
def verdict (s : Session) (file : Path) (format : Format) : Reply → Except Fault Verdict
  | .error (.lint _) => .ok .failed
  | .error (.fault fault) => .error fault
  | .ok completed =>
    match Report.parse s.disk.room format completed.stdout.toList with
    | .error (.lint _) => .ok .failed
    | .error (.fault fault) => .error fault
    | .ok report => do
      let target ← s.disk.canonical file
      let _ ← report.resolvedEntries s.disk s.workspace (some file.parent)
      let records := report.about s.disk s.workspace (some file.parent) target
      let diagnostics ← shownAll s.disk records target s.workspace
      return .completed target diagnostics

variable {s t : Session} {file : Path} {format : Format} {r : Reply} {v : Verdict}

theorem verdict_ground (h : s.SameGround t) : verdict t file format = verdict s file format := by
  funext r
  simp only [verdict, h.disk, h.workspace]

theorem groups_of_resolved {output : String} {report : Report} {target : Path}
    (hreport : Report.parse s.disk.room format output.toList = .ok report)
    (hc : s.disk.canonical file = .ok target)
    (hnames : ∃ entries,
      report.resolvedEntries s.disk s.workspace (some file.parent) = .ok entries) :
    groups s file format output =
      .ok [(target, report.about s.disk s.workspace (some file.parent) target)] := by
  obtain ⟨found, hfound⟩ :=
    (Report.groupedFor_isOk_iff hc).2 (Report.resolvedEntries_isOk_iff.1 hnames)
  have hgroups : groups s file format output = .ok found := by
    rw [groups_of_parse hreport, hfound]
    rfl
  obtain ⟨report', target', hreport', hc', rfl⟩ := groups_eq hgroups
  obtain rfl := Except.ok.inj (hreport.symm.trans hreport')
  obtain rfl := Except.ok.inj (hc.symm.trans hc')
  exact hgroups

/-- A lint run ends as the linter's reply says. -/
theorem conclude_of_verdict (notify : Bool) (hdisposed : s.disposed = false)
    (hcanonical : ∀ target, s.disk.canonical file = .ok target →
      ∃ q, s.disk.canonical target = .ok q)
    (h : verdict s file format r = .ok v) : ∃ store events,
      conclude s file notify format r =
        ⟨{ s.leave file with store }, events, .ended (.ok v.outcome)⟩ ∧
      events.filterMap Event.call? = [] ∧ events.filter (!·.isSilent) = v.published := by
  cases r with
  | error failure =>
    cases failure with
    | fault fault => cases h
    | lint e =>
      obtain rfl : Verdict.failed = v := Except.ok.inj h
      have hquiet := Event.quiet_of_isNotice (isNotice_failureEvents file e notify)
      exact ⟨s.store, _, rfl, hquiet.1, hquiet.2⟩
  | ok completed =>
    cases hparse : Report.parse s.disk.room format completed.stdout.toList with
    | error failure =>
      have hgroups : groups s file format completed.stdout = .error failure := by
        simp [groups, hparse]
      cases failure with
      | fault fault => simp [verdict, hparse] at h
      | lint e =>
        obtain rfl : Verdict.failed = v := by simpa [verdict, hparse] using h
        obtain ⟨logged, hlogged, hconclude⟩ : ∃ logged : List Event, (∀ e ∈ logged, e.isNotice) ∧
            conclude s file notify format (.ok completed) =
              (fail s file notify (.lint e)).after logged := by
          simp only [conclude, hgroups]
          exact ⟨_, by simp [Event.isNotice], rfl⟩
        have hquiet := Event.quiet_of_isNotice
          (List.forall_mem_append.2 ⟨hlogged, isNotice_failureEvents file e notify⟩)
        exact ⟨s.store, _, hconclude, hquiet.1, hquiet.2⟩
    | ok report =>
      simp only [verdict, hparse] at h
      obtain ⟨target, hc, h⟩ := bind_eq_ok.1 h
      obtain ⟨entries, hentries, h⟩ := bind_eq_ok.1 h
      obtain ⟨diagnostics, hshown, h⟩ := bind_eq_ok.1 h
      obtain rfl : Verdict.completed target diagnostics = v := Except.ok.inj h
      obtain ⟨place, hplace⟩ := hcanonical target hc
      have hgroups := groups_of_resolved hparse hc ⟨entries, hentries⟩
      have hleft : (s.leave file).disposed = false := hdisposed
      have hdisk : (s.leave file).disk = s.disk := rfl
      have hroot : (s.leave file).workspace = s.workspace := rfl
      refine ⟨⟨s.store.slices.put place
        (report.about s.disk s.workspace (some file.parent) target)⟩,
        [.publish target diagnostics], ?_, rfl, rfl⟩
      simp only [conclude, hgroups, finish, hleft, publish, Store.replace, hdisk, hplace, hroot,
        hshown, ok_bind, pure_eq_ok]
      rfl

end Lint

/-! ### Sessions in which nothing is under way -/

namespace Session

/-- The report format, if it is known without the linter being asked. -/
def knownFormat? (s : Session) : Option Format :=
  s.pinned.or (s.negotiation.known.map Version.formatOf)

/-- What the linter is asked before a file is linted. -/
def inquiries (s : Session) : List Call :=
  if s.knownFormat?.isSome then [] else [Call.forVersion s.settings]

/-- The report format in use. -/
def formatFor (s : Session) (linter : Linter) : Except Fault Format :=
  match s.knownFormat? with
  | some format => .ok format
  | none => (Version.ofReply (linter.reply 0 (Call.forVersion s.settings))).map Version.formatOf

/-- A session for a workspace that no request is being carried out in. -/
structure Idle (s : Session) : Prop where
  disk : s.disk.Spellable
  workspace : ∃ root, s.workspace = some root ∧ root.Rooted
  disposed : s.disposed = false
  inFlight : s.inFlight = []
  free : s.negotiation.held = false
  queued : s.negotiation.queued = 0

variable {s t : Session} {file p : Path} {format : Format} {call : Call} {notify : Bool}
  {linter : Linter} {v : Verdict}

/-- Every file can be linted. -/
theorem Idle.exists_callFor? (h : s.Idle) (hfile : file.Rooted) (format : Format) :
    ∃ call, Sweep.callFor? s format file = some call := by
  obtain ⟨root, hroot, hrooted⟩ := h.workspace
  obtain ⟨f, hf, -⟩ := Disk.canonical_of_rooted h.disk hfile
  obtain ⟨base, hbase, -⟩ := Disk.canonical_of_rooted h.disk hrooted
  have hinvocation : ∃ invocation, s.disk.invocation file s.workspace = .ok invocation := by
    simp [Disk.invocation, hf, hroot, hbase]
  obtain ⟨invocation, hi⟩ := hinvocation
  simp [Sweep.callFor?, Command.lint, hi]

end Session

/-! ### One file -/

namespace Lint

open Session

variable {s t : Session} {file p : Path} {format : Format} {call : Call} {notify : Bool}
  {linter : Linter} {v : Verdict}

/-- The run of the linter over a file that has been let in, up to the end. -/
theorem settles_call (notify : Bool) {negotiation : Negotiation} (hidle : s.Idle)
    (hfree : negotiation.held = false) (hqueued : negotiation.queued = 0) (hfile : file.Rooted)
    (hcall : Sweep.callFor? s format file = some call)
    (hverdict : verdict s file format (linter.reply 0 call) = .ok v) : ∃ t events,
      Settles kind linter (Lint.call { s.enter file with negotiation } file notify format)
        ⟨t, .call call :: events, .ok v.outcome⟩ (linter.after 1) ∧
      s.SameGround t ∧ t.Idle ∧ t.negotiation = negotiation ∧
      events.filterMap Event.call? = [] ∧ events.filter (!·.isSilent) = v.published := by
  let u : Session := { s.enter file with negotiation }
  have hcanonical : ∀ target, u.disk.canonical file = .ok target →
      ∃ q, u.disk.canonical target = .ok q := by
    intro target htarget
    obtain ⟨q, hq, -⟩ := Disk.canonical_of_rooted hidle.disk
      (Disk.rooted_of_canonical hidle.disk hfile.nulFree htarget)
    exact ⟨q, hq⟩
  have hdisposed : u.disposed = false := hidle.disposed
  obtain ⟨store, events, hconclude, hevents⟩ :=
    conclude_of_verdict notify hdisposed hcanonical hverdict
  obtain ⟨command, hcommand, rfl⟩ : ∃ command,
      Command.lint u.disk u.settings u.workspace file format = .ok command ∧
        command.call u.settings = call := by
    unfold Sweep.callFor? at hcall
    split at hcall
    next command hcommand => exact ⟨command, hcommand, Option.some.inj hcall⟩
    next => cases hcall
  have hcalled : Lint.call u file notify format = ⟨u, [.call (command.call u.settings)],
      .waiting ⟨file, notify, .running format (command.call u.settings)⟩⟩ := by
    simp only [Lint.call, hcommand]
  have hleft : { u.leave file with store }.inFlight = [] := by
    simp [u, leave, enter, hidle.inFlight]
  refine ⟨{ u.leave file with store }, events, ?_, ⟨rfl, rfl, rfl, rfl, rfl⟩,
    ⟨hidle.disk, hidle.workspace, hidle.disposed, hleft, hfree, hqueued⟩, rfl, hevents⟩
  rw [hcalled]
  refine Settles.wait ?_
  have hnext : next u (linter.reply 0) ⟨file, notify, .running format (command.call u.settings)⟩ =
      _ := hconclude
  simp only [kind, hnext]
  exact .ended rfl

/-- A file is passed over if linting is disabled, or if it lies below the directory of version
control. -/
theorem settles_skipped (hc : s.disk.canonical p = .ok file)
    (hskip : s.settings.enable = false ∨ file.hasVcsPart = true) :
    Settles kind linter (Lint.start s p notify) ⟨s, [], .ok .skipped⟩ linter := by
  have hstart : Lint.start s p notify = ⟨s, [], .ended (.ok .skipped)⟩ := by
    rcases hskip with h | h <;> simp [Lint.start, hc, isActive, h]
  rw [hstart]
  exact .ended rfl

theorem arrive_of_idle (hidle : s.Idle) : s.negotiation.arrive = s.negotiation.serve := by
  simp [Negotiation.arrive, Negotiation.isFree, hidle.free, hidle.queued]

/-- A run that knows the format calls the linter at once. -/
theorem letIn_of_known (hidle : s.Idle) (hknown : s.knownFormat? = some format) :
    letIn (s.enter file) file notify = Lint.call (s.enter file) file notify format := by
  have henter : (s.enter file).pinned = s.pinned := rfl
  have hnegotiation : (s.enter file).negotiation = s.negotiation := rfl
  unfold knownFormat? at hknown
  unfold letIn
  rw [henter]
  cases hpinned : s.pinned with
  | some pinned =>
    obtain rfl : pinned = format := by simpa [hpinned] using hknown
    rfl
  | none =>
    obtain ⟨version, hversion, rfl⟩ : ∃ version, s.negotiation.known = some version ∧
        Version.formatOf version = format := by simpa [hpinned] using hknown
    simp only [Inquiry.start, hnegotiation, arrive_of_idle hidle, Negotiation.serve, hversion,
      Inquiry.admitted, informed]
    rfl

/-- A run that does not know it asks the linter for its version first. -/
theorem letIn_of_unknown (hidle : s.Idle) (hknown : s.knownFormat? = none) :
    letIn (s.enter file) file notify =
      ⟨{ s.enter file with negotiation := { s.negotiation with held := true } },
        [.call (Call.forVersion s.settings)],
        .waiting ⟨file, notify, .inquiring (.asking (Call.forVersion s.settings))⟩⟩ := by
  have henter : (s.enter file).pinned = s.pinned := rfl
  have hnegotiation : (s.enter file).negotiation = s.negotiation := rfl
  obtain ⟨hpinned, hnone⟩ : s.pinned = none ∧ s.negotiation.known = none := by
    simpa [knownFormat?] using hknown
  simp only [letIn, henter, hpinned, Inquiry.start, hnegotiation, arrive_of_idle hidle,
    Negotiation.serve, hnone, Inquiry.admitted, informed]
  rfl

theorem start_of_idle (notify : Bool) (hidle : s.Idle) (hc : s.disk.canonical p = .ok file)
    (henable : s.settings.enable = true) (hvcs : file.hasVcsPart = false) :
    Lint.start s p notify = letIn (s.enter file) file notify := by
  simp [Lint.start, hc, isActive, hidle.disposed, henable, hvcs, hidle.inFlight]

/-- A file that is not passed over is linted, once the linter has been asked for its version. -/
theorem settles_start (hidle : s.Idle) (hc : s.disk.canonical p = .ok file) (hfile : file.Rooted)
    (henable : s.settings.enable = true) (hvcs : file.hasVcsPart = false)
    (hformat : s.formatFor linter = .ok format)
    (hcall : Sweep.callFor? s format file = some call)
    (hverdict : verdict s file format (linter.reply s.inquiries.length call) = .ok v) :
    ∃ t events, Settles kind linter (Lint.start s p notify)
        ⟨t, s.inquiries.map .call ++ .call call :: events, .ok v.outcome⟩
        (linter.after (s.inquiries.length + 1)) ∧
      s.SameGround t ∧ t.Idle ∧ t.knownFormat? = some format ∧
      events.filterMap Event.call? = [] ∧ events.filter (!·.isSilent) = v.published := by
  have hletIn := start_of_idle notify hidle hc henable hvcs
  cases hknown : s.knownFormat? with
  | some known =>
    obtain rfl : known = format := by simpa [formatFor, hknown] using hformat
    have hnone : s.inquiries = [] := by simp [inquiries, hknown]
    rw [hnone] at hverdict ⊢
    obtain ⟨t, events, hsettles, hground, ht, hnegotiation, hevents⟩ :=
      settles_call notify hidle hidle.free hidle.queued hfile hcall hverdict
    have hcalls : letIn (s.enter file) file notify =
        Lint.call { s.enter file with negotiation := s.negotiation } file notify known :=
      letIn_of_known hidle hknown
    refine ⟨t, events, ?_, hground, ht, ?_, hevents⟩
    · rw [hletIn, hcalls]
      exact hsettles
    · rw [← hknown, knownFormat?, knownFormat?, hground.pinned, hnegotiation]
  | none =>
    obtain ⟨version, hversion, rfl⟩ : ∃ version,
        Version.ofReply (linter.reply 0 (Call.forVersion s.settings)) = .ok version ∧
          Version.formatOf version = format := by
      simp only [formatFor, hknown] at hformat
      cases hreply : Version.ofReply (linter.reply 0 (Call.forVersion s.settings)) with
      | error fault => simp [hreply, Except.map] at hformat
      | ok version => exact ⟨version, rfl, by simpa [hreply, Except.map] using hformat⟩
    have hone : s.inquiries = [Call.forVersion s.settings] := by simp [inquiries, hknown]
    rw [hone] at hverdict ⊢
    let asked : Session :=
      { s.enter file with negotiation := { s.negotiation with held := true } }
    have hfree : (asked.negotiation.settle version).held = false := rfl
    have hreply :
        verdict s file (Version.formatOf version) ((linter.after 1).reply 0 call) = .ok v :=
      hverdict
    obtain ⟨t, events, hsettles, hground, ht, hnegotiation, hevents⟩ :=
      settles_call notify hidle hfree hidle.queued hfile hcall hreply
    refine ⟨t, events, ?_, hground, ht, ?_, hevents⟩
    · rw [hletIn, letIn_of_unknown hidle hknown]
      refine Settles.wait ?_
      have hnext : next asked (linter.reply 0)
          ⟨file, notify, .inquiring (.asking (Call.forVersion s.settings))⟩ =
            Lint.call { s.enter file with negotiation := asked.negotiation.settle version } file
              notify (Version.formatOf version) := by
        simp only [next, Inquiry.next, hversion, informed]
        rfl
      rw [← hnext, Linter.after_after] at hsettles
      exact hsettles
    · have hpinned : s.pinned = none := (Option.or_eq_none_iff.1 hknown).1
      rw [knownFormat?, hground.pinned, hnegotiation, hpinned]
      rfl

/-- A fault that comes up when the linter is asked for its version ends the run. -/
theorem settles_unversioned (notify : Bool) {fault : Fault} (hidle : s.Idle)
    (hc : s.disk.canonical p = .ok file) (henable : s.settings.enable = true)
    (hvcs : file.hasVcsPart = false) (hformat : s.formatFor linter = .error fault) :
    ∃ t, Settles kind linter (Lint.start s p notify)
      ⟨t, s.inquiries.map .call, .error (.fault fault)⟩ (linter.after 1) := by
  rw [start_of_idle notify hidle hc henable hvcs]
  cases hknown : s.knownFormat? with
  | some known => simp [formatFor, hknown] at hformat
  | none =>
    have hreply : Version.ofReply (linter.reply 0 (Call.forVersion s.settings)) = .error fault := by
      simp only [formatFor, hknown] at hformat
      cases hversion : Version.ofReply (linter.reply 0 (Call.forVersion s.settings)) with
      | error f => simpa [hversion, Except.map] using hformat
      | ok version => simp [hversion, Except.map] at hformat
    have hone : s.inquiries = [Call.forVersion s.settings] := by simp [inquiries, hknown]
    rw [letIn_of_unknown hidle hknown, hone]
    let asked : Session :=
      { s.enter file with negotiation := { s.negotiation with held := true } }
    let left : Session := { asked with negotiation := asked.negotiation.abandon }
    refine ⟨left.leave file, ?_⟩
    refine Settles.wait ?_
    have hnext : next asked (linter.reply 0)
        ⟨file, notify, .inquiring (.asking (Call.forVersion s.settings))⟩ =
          ⟨left.leave file, [], .ended (.error (.fault fault))⟩ := by
      simp only [next, Inquiry.next, hreply, informed, fail]
      rfl
    have hkind : kind.next asked (linter.reply 0)
        ⟨file, notify, .inquiring (.asking (Call.forVersion s.settings))⟩ = _ := hnext
    rw [hkind]
    exact .ended rfl

end Lint

/-! ### Files one after another -/

/-- What the linter replies to calls that come one after another. -/
def Linter.replies (linter : Linter) : List Call → List Reply
  | [] => []
  | call :: rest => linter.reply 0 call :: (linter.after 1).replies rest

namespace Session

/-- The files among some that are linted. -/
def lintable (s : Session) (files : List Path) : List Path :=
  if s.settings.enable then Sweep.lintable files else []

/-- The runs of the linter over files that are linted. -/
def callsFor (s : Session) (format : Format) (files : List Path) : List Call :=
  files.filterMap (Sweep.callFor? s format)

variable {s t : Session} {file : Path} {files : List Path} {format : Format}

theorem lintable_ground (h : s.SameGround t) : t.lintable = s.lintable := by
  funext files
  simp only [lintable, h.settings]

theorem callsFor_ground (h : s.SameGround t) : t.callsFor format = s.callsFor format := by
  funext files
  simp only [callsFor, Sweep.callFor?_ground h]

theorem lintable_cons_of_skipped (h : s.settings.enable = false ∨ file.hasVcsPart = true) :
    s.lintable (file :: files) = s.lintable files := by
  unfold lintable Sweep.lintable
  rcases h with h | h <;> simp [h]

theorem lintable_cons_of_linted (henable : s.settings.enable = true)
    (hvcs : file.hasVcsPart = false) : s.lintable (file :: files) = file :: s.lintable files := by
  simp [lintable, Sweep.lintable, henable, hvcs]

end Session

/-- What comes of linting files one after another, file by file. -/
def Verdicts (s : Session) (format : Format) (linter : Linter) (files : List Path)
    (verdicts : List Verdict) : Prop :=
  List.Forall₂ (fun e v => Lint.verdict s e.1 format e.2 = .ok v)
    (files.zip (linter.replies (s.callsFor format files))) verdicts

/-- The replies decide what comes of the files. -/
theorem Verdicts.unique {s : Session} {format : Format} {linter : Linter} {files : List Path}
    {verdicts verdicts' : List Verdict} (h : Verdicts s format linter files verdicts)
    (h' : Verdicts s format linter files verdicts') : verdicts = verdicts' := by
  have hunique : Relator.RightUnique fun (e : Path × Reply) v =>
      Lint.verdict s e.1 format e.2 = .ok v :=
    fun _ _ _ hv hv' => Except.ok.inj (hv.symm.trans hv')
  exact hunique.forall₂ h h'

theorem Verdicts.ground {s t : Session} {format : Format} {linter : Linter} {files : List Path}
    {verdicts : List Verdict} (h : Verdicts s format linter files verdicts)
    (hground : s.SameGround t) :
    Verdicts t format linter files verdicts := by
  have hverdict : Lint.verdict t = Lint.verdict s := by
    funext file format
    exact Lint.verdict_ground hground
  rw [Verdicts, hverdict, Session.callsFor_ground hground]
  exact h

namespace Lints

open Session

/-- Linting files one after another, told from the linter's replies. The induction is on the files:
the first one that is not passed over has the linter asked for its version, and from there on the
format is known. -/
theorem of_verdicts (notify : Bool) {disk : Disk} {format : Format} {paths files : List Path}
    (hpaths : List.Forall₂ (fun p file => disk.canonical p = .ok file ∧ file.Rooted) paths files)
    {s : Session} {linter : Linter} {verdicts : List Verdict} (hdisk : s.disk = disk)
    (hidle : s.Idle) (hformat : s.lintable files ≠ [] → s.formatFor linter = .ok format)
    (hverdicts : Verdicts s format (linter.after s.inquiries.length) (s.lintable files) verdicts) :
    ∃ t events outcomes, Lints notify linter s paths t events outcomes ∧
      outcomes.length = paths.length ∧ (.failed ∈ outcomes ↔ .failed ∈ verdicts) ∧
      events.filterMap Event.call? = (if s.lintable files = [] then [] else s.inquiries) ++
        s.callsFor format (s.lintable files) ∧
      events.filter (!·.isSilent) = verdicts.flatMap Verdict.published := by
  induction hpaths generalizing s linter verdicts with
  | nil =>
    have hnone : s.lintable [] = [] := by simp [lintable, Sweep.lintable]
    simp only [hnone, Verdicts, List.zip_nil_left, List.forall₂_nil_left_iff] at hverdicts
    subst hverdicts
    exact ⟨s, [], [], .nil, rfl, by simp, by simp [hnone, callsFor], rfl⟩
  | @cons p file paths files hfile hpaths ih =>
    obtain ⟨hc, hrooted⟩ := hfile
    rw [← hdisk] at hc
    by_cases hskip : s.settings.enable = false ∨ file.hasVcsPart = true
    · rw [lintable_cons_of_skipped hskip] at hformat hverdicts ⊢
      obtain ⟨t, events, outcomes, hlints, hlength, hfailed, hcalls, hshown⟩ :=
        ih hdisk hidle hformat hverdicts
      have hfirst : Settles Lint.kind linter (Lint.start s p notify) ⟨s, [], .ok .skipped⟩
          (linter.after (([] : List Event).filterMap Event.call?).length) := by
        simpa using Lint.settles_skipped hc hskip
      have hothers : Lints notify (linter.after (([] : List Event).filterMap Event.call?).length) s
          paths t events outcomes := by
        simpa using hlints
      exact ⟨t, _, _, .cons hfirst hothers, by simp [hlength], by simpa using hfailed, hcalls,
        hshown⟩
    · have henable : s.settings.enable = true := by
        simpa using fun h => hskip (.inl h)
      have hvcs : file.hasVcsPart = false := by
        simpa using fun h => hskip (.inr h)
      rw [lintable_cons_of_linted henable hvcs] at hformat hverdicts ⊢
      obtain ⟨call, hcall⟩ := hidle.exists_callFor? hrooted format
      have hcallsFor : s.callsFor format (file :: s.lintable files) =
          call :: s.callsFor format (s.lintable files) := by
        simp [callsFor, hcall]
      rw [Verdicts, hcallsFor, Linter.replies, List.zip_cons_cons] at hverdicts
      obtain ⟨v, later, hv, hlater, rfl⟩ := List.forall₂_cons_left_iff.1 hverdicts
      obtain ⟨t, events, hfirst, hground, ht, hknown, hquiet, hpublished⟩ :=
        Lint.settles_start hidle hc hrooted henable hvcs (hformat (by simp)) hcall hv
      -- the other files are linted in the session that this one leaves, which knows the format
      have hasked : t.inquiries = [] := by simp [inquiries, hknown]
      have hlater' : Verdicts t format ((linter.after (s.inquiries.length + 1)).after
          t.inquiries.length) (t.lintable files) later := by
        rw [hasked, lintable_ground hground, List.length_nil, Linter.after_zero,
          ← Linter.after_after]
        exact Verdicts.ground hlater hground
      obtain ⟨u, events', outcomes, hlints, hlength, hfailed, hcalls, hshown⟩ :=
        ih (hground.disk.trans hdisk) ht (fun _ => by simp [formatFor, hknown]) hlater'
      obtain ⟨hfirstCalls, hfirstShown⟩ :
          (s.inquiries.map Event.call ++ .call call :: events).filterMap Event.call? =
            s.inquiries ++ [call] ∧
          (s.inquiries.map Event.call ++ .call call :: events).filter (!·.isSilent) =
            v.published := by
        simpa using Event.of_calls (s.inquiries ++ [call]) hquiet hpublished
      have hcount : linter.after (s.inquiries.length + 1) = linter.after
          ((s.inquiries.map Event.call ++ .call call :: events).filterMap Event.call?).length := by
        rw [hfirstCalls]
        simp
      rw [hcount] at hfirst hlints
      refine ⟨u, _, _, .cons hfirst hlints, by simp [hlength], ?_, ?_, ?_⟩
      · rw [List.mem_cons, List.mem_cons, hfailed, Verdict.failed_eq_outcome]
      · rw [List.filterMap_append, hfirstCalls, hcalls, hasked, lintable_ground hground,
          callsFor_ground hground, hcallsFor]
        simp
      · rw [List.filter_append, hfirstShown, hshown, List.flatMap_cons]

end Lints

end LintBridge
