import LintBridge.Proofs.Detection
import LintBridge.Proofs.Discovery
import LintBridge.Proofs.Printing
import LintBridge.Proofs.Records
import LintBridge.Proofs.Verdicts

/-!
# LintBridge.Proofs.ExitStatus

The status with which the program ends after linting. Files that are named and files that are found
are linted alike (`Lints`), so that the status follows from what comes of them one by one: it says
that a lint has failed, or that diagnostics are left on show, or that none are. What is left on show
for a file is what its last lint has found (`Verdict.count_ne_zero_iff`), however often and under
whatever spelling it has been named.

Main result: `Program.lint_status`, for every linter that can be asked for its version. What the
program does when it is told a version with a number too long to be read is
`Sample.lint_ends_with_fault`.
-/

namespace LintBridge

/-! ### What is left on show -/

namespace Verdict

/-- The diagnostics that are shown for a file. -/
def shownFor? (file : Path) : Verdict → Option (List Diagnostic)
  | failed => none
  | completed f diagnostics => if f = file then some diagnostics else none

/-- The diagnostics that the last completed lint of a file has shown. -/
def latest? (file : Path) (verdicts : List Verdict) : Option (List Diagnostic) :=
  verdicts.reverse.findSome? (shownFor? file)

/-- For some file, the last completed lint has found something. -/
def Remains (verdicts : List Verdict) : Prop :=
  ∃ file diagnostics, latest? file verdicts = some diagnostics ∧ diagnostics ≠ []

/-- The diagnostics on show after some lints. -/
def board (verdicts : List Verdict) : Board :=
  (verdicts.flatMap published).foldl Board.after []

theorem latest?_concat (file : Path) (verdicts : List Verdict) (v : Verdict) :
    latest? file (verdicts ++ [v]) = (v.shownFor? file).or (latest? file verdicts) := by
  unfold latest?
  rw [List.reverse_append, List.reverse_singleton, List.singleton_append, List.findSome?_cons]
  cases v.shownFor? file <;> rfl

theorem board_concat (verdicts : List Verdict) (v : Verdict) :
    board (verdicts ++ [v]) = v.published.foldl Board.after (board verdicts) := by
  simp [board, List.foldl_append]

/-- Each lint replaces what is on show for its file, so that the last one counts. -/
theorem board_spec (verdicts : List Verdict) :
    (board verdicts).files.Nodup ∧
      ∀ file, (board verdicts).get? file = latest? file verdicts := by
  induction verdicts using List.reverseRecOn with
  | nil => exact ⟨List.nodup_nil, fun _ => rfl⟩
  | append_singleton verdicts v ih =>
    obtain ⟨hnodup, hget⟩ := ih
    rw [board_concat]
    cases v with
    | failed => exact ⟨hnodup, fun file => by rw [latest?_concat]; exact hget file⟩
    | completed f diagnostics =>
      refine ⟨FileMap.nodup_put hnodup f diagnostics, fun file => ?_⟩
      have hput : published (completed f diagnostics) = [.publish f diagnostics] := rfl
      rw [latest?_concat, hput, List.foldl_cons, List.foldl_nil, Board.after]
      by_cases hf : f = file
      · rw [← hf, FileMap.get?_put_self]
        simp [shownFor?]
      · rw [FileMap.get?_put_of_ne _ _ (Ne.symm hf), hget]
        simp [shownFor?, hf]

/-- Something is left on show if and only if, for some file, the last completed lint has found
something. -/
theorem count_ne_zero_iff (verdicts : List Verdict) :
    (board verdicts).count ≠ 0 ↔ Remains verdicts := by
  obtain ⟨hnodup, hget⟩ := board_spec verdicts
  have hcount : (board verdicts).count ≠ 0 ↔ ∃ e ∈ board verdicts, e.2 ≠ [] := by
    rw [Board.count, Ne, List.length_eq_zero_iff, Board.diagnostics, List.flatMap_eq_nil_iff]
    push Not
    rfl
  rw [hcount]
  constructor
  · rintro ⟨⟨file, diagnostics⟩, hmem, hsome⟩
    exact ⟨file, diagnostics, by rw [← hget]; exact lookup_of_mem hnodup hmem, hsome⟩
  · rintro ⟨file, diagnostics, hlatest, hsome⟩
    rw [← hget] at hlatest
    obtain ⟨before, after, hboard, -⟩ := List.lookup_eq_some_iff.1 hlatest
    exact ⟨(file, diagnostics), by simp [hboard], hsome⟩

end Verdict

instance (verdicts : List Verdict) : Decidable (Verdict.Remains verdicts) :=
  decidable_of_iff _ (Verdict.count_ne_zero_iff verdicts)

/-- Only what is shown changes what is on show. -/
theorem Board.foldl_filter (events : List Event) (board : Board) :
    (events.filter (!·.isSilent)).foldl after board = events.foldl after board := by
  induction events generalizing board with
  | nil => rfl
  | cons e rest ih =>
    cases he : e.isSilent with
    | true =>
      have hsame : [e].foldl after board = board := foldl_silent (by simpa using he) board
      rw [List.filter_cons_of_neg (by simp [he]), ih, List.foldl_cons]
      rw [List.foldl_cons, List.foldl_nil] at hsame
      rw [hsame]
    | false => rw [List.filter_cons_of_pos (by simp [he]), List.foldl_cons, List.foldl_cons, ih]

/-! ### Replies that no fault comes of -/

namespace Lint

open Session

/-- A reply to the lint of a file that no fault comes of: the linter has failed, or its output is no
report, or it is one whose names and remarks have paths that can be resolved. -/
def Answers (s : Session) (file : Path) (format : Format) : Reply → Prop
  | .error failure => ∃ e, failure = .lint e
  | .ok completed =>
    (∃ e, Report.parse s.disk.room format completed.stdout.toList = .error (.lint e)) ∨
    ∃ report, Report.parse s.disk.room format completed.stdout.toList = .ok report ∧
      ∀ entry ∈ report.entries,
        (∃ f, s.disk.reportedAs s.workspace (some file.parent) entry.1 = .ok f) ∧
        ∀ finding, .finding finding ∈ entry.2 → ∀ remark ∈ finding.related.getD [],
          ∃ f, s.disk.reportedAs s.workspace (some file.parent) remark.location.uri = .ok f

variable {s : Session} {file : Path} {format : Format} {r : Reply}

/-- Such a reply has a meaning. -/
theorem exists_verdict (hidle : s.Idle) (hfile : file.Rooted) (h : Answers s file format r) :
    ∃ v, verdict s file format r = .ok v := by
  cases r with
  | error failure =>
    obtain ⟨e, rfl⟩ := h
    exact ⟨.failed, rfl⟩
  | ok completed =>
    obtain ⟨e, hparse⟩ | ⟨report, hparse, hall⟩ := h
    · exact ⟨.failed, by simp [verdict, hparse]⟩
    obtain ⟨target, htarget, habsolute, -⟩ := Disk.canonical_of_rooted hidle.disk hfile
    obtain ⟨entries, hentries⟩ :=
      Report.resolvedEntries_isOk_iff.2 fun entry he => (hall entry he).1
    -- in a workspace, it does not matter where the file is
    have hreported : ∀ name, s.disk.reportedAs s.workspace (some target.parent) name =
        s.disk.reportedAs s.workspace (some file.parent) name := by
      obtain ⟨root, hroot, -⟩ := hidle.workspace
      intro name
      simp [Disk.reportedAs, Disk.reported, hroot]
    have hshowable : ¬ Unshowable s.disk s.workspace target
        (report.about s.disk s.workspace (some file.parent) target) := by
      rintro ⟨finding, hfinding, remark, hremark, fault, hfault⟩
      obtain ⟨entry, hentry, hmem⟩ := List.mem_flatMap.1 hfinding
      obtain ⟨f, hf⟩ := (hall entry (List.mem_of_mem_filter hentry)).2 finding hmem remark hremark
      rw [hreported, hf] at hfault
      cases hfault
    obtain ⟨diagnostics, hshown⟩ := (shownAll_isOk_iff habsolute _).2 hshowable
    exact ⟨.completed target diagnostics, by simp [verdict, hparse, htarget, hentries, hshown]⟩

end Lint

/-! ### Requests to lint -/

theorem Linter.length_replies (linter : Linter) (calls : List Call) :
    (linter.replies calls).length = calls.length := by
  induction calls generalizing linter with
  | nil => rfl
  | cons call rest ih => simp [replies, ih]

namespace Session

variable {s : Session} {linter : Linter} {format : Format} {paths fs : List Path}
  {verdicts : List Verdict}

/-- The requests to lint files, or the whole workspace if there are none. -/
def lintRequests (files : List String) : List Request :=
  if files.isEmpty then [.sweep] else files.map fun (file : String) => .lint (.ofText file)

/-- The files that these requests go through. -/
def targets (s : Session) (files : List String) : Except Fault (List Path) :=
  if files.isEmpty then s.workspace.elim (.ok []) (Sweep.files s)
  else .ok (files.map fun (file : String) => .ofText file)

/-- The linter calls for files that are linted one after another. -/
def lintCalls (s : Session) (format : Format) (files : List Path) : List Call :=
  (if s.lintable files = [] then [] else s.inquiries) ++ s.callsFor format (s.lintable files)

/-- What requests to lint come to, by what has come of the lints. -/
structure Yields (calls : List Call) (verdicts : List Verdict)
    (step : Step (Except Failure (List Answer))) : Prop where
  answers : ∃ answers, step.value = .ok answers ∧
    (answers.any Program.hasFailed = true ↔ .failed ∈ verdicts)
  calls : step.events.filterMap Event.call? = calls
  shown : step.events.filter (!·.isSilent) = verdicts.flatMap Verdict.published

theorem targets_cases {files : List String} (hidle : s.Idle) (h : s.targets files = .ok paths) :
    (∃ root, s.workspace = some root ∧ Sweep.files s root = .ok paths ∧
      lintRequests files = [.sweep]) ∨ lintRequests files = paths.map fun p => .lint p := by
  unfold targets at h
  cases files with
  | nil =>
    obtain ⟨root, hroot, -⟩ := hidle.workspace
    exact .inl ⟨root, hroot, by simpa [hroot] using h, rfl⟩
  | cons first rest =>
    obtain rfl := Except.ok.inj h
    exact .inr (by simp [lintRequests])

theorem start_eq_through {root : Path} (hidle : s.Idle) (henable : s.settings.enable = true)
    (hroot : s.workspace = some root) (hfiles : Sweep.files s root = .ok paths)
    (hne : paths ≠ []) : Sweep.start s = Sweep.through s {} paths := by
  have hactive : s.isActive = true := by simp [isActive, hidle.disposed, henable]
  cases paths with
  | nil => exact absurd rfl hne
  | cons p rest => simp [Sweep.start, hactive, hroot, hfiles]

theorem performAll_singleton {t : Session} {r : Request} {events : List Event} {answer : Answer}
    (h : s.perform linter r = ⟨t, events, .ok answer⟩) :
    s.performAll linter [r] = ⟨t, events, .ok [answer]⟩ := by
  simp [performAll, h, Step.after, Except.map]

/-- Files that are named are linted one after another. -/
theorem yields_named
    (hpaths : List.Forall₂ (fun p file => s.disk.canonical p = .ok file ∧ file.Rooted) paths fs)
    (hidle : s.Idle) (hformat : s.lintable fs ≠ [] → s.formatFor linter = .ok format)
    (hverdicts : Verdicts s format (linter.after s.inquiries.length) (s.lintable fs) verdicts) :
    Yields (s.lintCalls format fs) verdicts
      (s.performAll linter (paths.map fun p => .lint p)) := by
  obtain ⟨t, events, outcomes, hlints, -, hfailed, hcalls, hshown⟩ :=
    Lints.of_verdicts true hpaths rfl hidle hformat hverdicts
  rw [hlints.performAll]
  refine ⟨⟨_, rfl, ?_⟩, hcalls, hshown⟩
  rw [← hfailed]
  simp [Program.hasFailed]

/-- The files of a sweep that have failed. -/
theorem failed_foldl_add {outcomes : List Outcome} (h : outcomes.length = paths.length)
    (report : SweepReport) :
    ((paths.zip outcomes).foldl (fun report e => report.add e.1 e.2) report).failed = [] ↔
      report.failed = [] ∧ .failed ∉ outcomes := by
  induction paths generalizing outcomes report with
  | nil => simp [List.length_eq_zero_iff.1 h]
  | cons p rest ih =>
    cases outcomes with
    | nil => simp at h
    | cons outcome others =>
      rw [List.zip_cons_cons, List.foldl_cons, ih (by simpa using h)]
      cases outcome <;> simp [SweepReport.add]

/-- A sweep that lints nothing. -/
theorem yields_nothing (hnone : s.lintable fs = []) {linter' : Linter}
    (hverdicts : Verdicts s format linter' (s.lintable fs) verdicts) {events : List Event}
    (hevents : ∀ e ∈ events, e.isNotice)
    (hstart : Sweep.start s = ⟨s, events, .ended (.ok {})⟩) :
    Yields (s.lintCalls format fs) verdicts (s.performAll linter [.sweep]) := by
  obtain rfl : verdicts = [] := by
    simpa [Verdicts, hnone, List.forall₂_nil_left_iff] using hverdicts
  have hperform : s.perform linter .sweep = ⟨s, events, .ok (.swept {})⟩ := by
    simp [perform, request, hstart, Step.lift, Progress.map, Except.map]
  obtain ⟨hcalls, hshown⟩ := Event.quiet_of_isNotice hevents
  rw [performAll_singleton hperform]
  exact ⟨⟨_, rfl, by simp [Program.hasFailed]⟩, by simp [hcalls, lintCalls, hnone, callsFor],
    hshown⟩

/-- A sweep lints the files of the workspace one after another. -/
theorem yields_sweep {root : Path} (hroot : s.workspace = some root)
    (hfiles : Sweep.files s root = .ok paths)
    (hpaths : List.Forall₂ (fun p file => s.disk.canonical p = .ok file ∧ file.Rooted) paths fs)
    (hidle : s.Idle) (hformat : s.lintable fs ≠ [] → s.formatFor linter = .ok format)
    (hverdicts : Verdicts s format (linter.after s.inquiries.length) (s.lintable fs) verdicts) :
    Yields (s.lintCalls format fs) verdicts (s.performAll linter [.sweep]) := by
  have hactive : s.isActive = s.settings.enable := by simp [isActive, hidle.disposed]
  cases henable : s.settings.enable with
  | false =>
    have hstart : Sweep.start s = ⟨s, [], .ended (.ok {})⟩ := by
      simp [Sweep.start, hactive, henable]
    exact yields_nothing (by simp [lintable, henable]) hverdicts (by simp) hstart
  | true =>
    cases paths with
    | nil =>
      obtain rfl := List.forall₂_nil_left_iff.1 hpaths
      have hstart : Sweep.start s =
          ⟨s, [.showInfo "No .nu files found in workspace"], .ended (.ok {})⟩ := by
        simp [Sweep.start, hactive, henable, hroot, hfiles]
      exact yields_nothing (by simp [lintable, Sweep.lintable]) hverdicts
        (by simp [Event.isNotice]) hstart
    | cons p rest =>
      obtain ⟨t, events, outcomes, hlints, hlength, hfailed, hcalls, hshown⟩ :=
        Lints.of_verdicts false hpaths rfl hidle hformat hverdicts
      obtain ⟨linter', hsettles⟩ := hlints.through {}
      rw [← start_eq_through hidle henable hroot hfiles (List.cons_ne_nil p rest)] at hsettles
      rw [performAll_singleton hsettles.requestSweep.perform]
      refine ⟨⟨_, rfl, ?_⟩, ?_, ?_⟩
      · have hfinal := failed_foldl_add hlength {}
        rw [← hfailed]
        simp [Program.hasFailed, hfinal]
      · simp [hcalls, Event.call?, lintCalls]
      · rw [List.filter_append, hshown]
        exact List.append_nil _

/-- The files to lint can be found and looked up. -/
theorem exists_targets (hdisk : s.disk.Listable) (hidle : s.Idle) (hlisted : s.listed = none)
    {files : List String}
    (hfiles : ∀ file ∈ files, '\x00' ∉ file.toList ∧ ∃ f, s.disk.canonical (.ofText file) = .ok f) :
    ∃ paths fs, s.targets files = .ok paths ∧ paths.mapM s.disk.canonical = .ok fs ∧
      List.Forall₂ (fun p file => s.disk.canonical p = .ok file ∧ file.Rooted) paths fs := by
  unfold targets
  cases files with
  | nil =>
    obtain ⟨root, hroot, hrooted⟩ := hidle.workspace
    obtain ⟨paths, hpaths, hall⟩ :=
      hdisk.discover_isOk { excluded := s.settings.excludeDirs.map Letters.ofString } hrooted
    obtain ⟨fs, hfs⟩ := Disk.exists_canonical_of_rooted hidle.disk hall
    exact ⟨paths, fs, by simp [hroot, Sweep.files, hlisted, hpaths], hfs⟩
  | cons first rest =>
    have hall : ∀ p ∈ (first :: rest).map fun (file : String) => Path.ofText file,
        p.NulFree ∧ ∃ f, s.disk.canonical p = .ok f := by
      intro p hp
      obtain ⟨file, hfile, rfl⟩ := List.mem_map.1 hp
      have hletters : .char '\x00' ∉ (Letters.ofString file : Spelling) := by
        simpa using (hfiles file hfile).1
      exact ⟨Path.nulFree_iff.2 (Path.clean_ofText hletters), (hfiles file hfile).2⟩
    obtain ⟨fs, hfs⟩ := Disk.exists_canonical hidle.disk hall
    exact ⟨_, fs, rfl, hfs⟩

/-- The requests of the program lint the files that they go through one after another. -/
theorem yields_lintRequests {files : List String} (htargets : s.targets files = .ok paths)
    (hpaths : List.Forall₂ (fun p file => s.disk.canonical p = .ok file ∧ file.Rooted) paths fs)
    (hidle : s.Idle) (hformat : s.lintable fs ≠ [] → s.formatFor linter = .ok format)
    (hverdicts : Verdicts s format (linter.after s.inquiries.length) (s.lintable fs) verdicts) :
    Yields (s.lintCalls format fs) verdicts (s.performAll linter (lintRequests files)) := by
  rcases targets_cases hidle htargets with ⟨root, hroot, hfiles, hrequests⟩ | hrequests
  · rw [hrequests]
    exact yields_sweep hroot hfiles hpaths hidle hformat hverdicts
  · rw [hrequests]
    exact yields_named hpaths hidle hformat hverdicts

/-- Where every reply has a meaning, something comes of every lint. -/
theorem exists_verdicts (hidle : s.Idle) (hfs : ∀ f ∈ fs, f.Rooted)
    (hanswers : ∀ e ∈ fs.zip (linter.replies (s.callsFor format fs)),
      Lint.Answers s e.1 format e.2) :
    ∃ verdicts, Verdicts s format linter fs verdicts ∧ verdicts.length = fs.length := by
  obtain ⟨verdicts, hverdicts⟩ := (mapM_isOk_iff (fun e => Lint.verdict s e.1 format e.2)
    (fs.zip (linter.replies (s.callsFor format fs)))).2 fun e he =>
      Lint.exists_verdict hidle (hfs _ (List.of_mem_zip he).1) (hanswers e he)
  have hall : Verdicts s format linter fs verdicts := forall₂_of_mapM hverdicts
  have hcalls : (s.callsFor format fs).length = fs.length := by
    refine List.filterMap_length_eq_length.2 fun f hf => ?_
    obtain ⟨call, hcall⟩ := hidle.exists_callFor? (hfs f hf) format
    simp [hcall]
  refine ⟨verdicts, hall, ?_⟩
  rw [← hall.length_eq, List.length_zip, Linter.length_replies, hcalls, Nat.min_self]

/-! ### A linter that cannot be asked for its version -/

section Unversioned

variable {fault : Fault}

/-- The requests to lint files end at the first file that is linted. -/
theorem performAll_unversioned
    (hpaths : List.Forall₂ (fun p file => s.disk.canonical p = .ok file ∧ file.Rooted) paths fs)
    (hidle : s.Idle) (hsome : s.lintable fs ≠ []) (hformat : s.formatFor linter = .error fault) :
    ∃ t, s.performAll linter (paths.map fun p => .lint p) =
      ⟨t, s.inquiries.map .call, .error (.fault fault)⟩ := by
  induction hpaths with
  | nil => exact absurd (by simp [lintable, Sweep.lintable]) hsome
  | @cons p file paths fs hfile hpaths ih =>
    rw [List.map_cons]
    by_cases hskip : s.settings.enable = false ∨ file.hasVcsPart = true
    · rw [lintable_cons_of_skipped hskip] at hsome
      obtain ⟨t, hrest⟩ := ih hsome
      have hperform : s.perform linter (.lint p) = ⟨s, [], .ok (.outcome .skipped)⟩ :=
        ((Lint.settles_skipped hfile.1 hskip).request true).perform
      exact ⟨t, by simp [performAll, hperform, hrest, Step.after, Except.map]⟩
    · rw [not_or, Bool.not_eq_false, Bool.not_eq_true] at hskip
      obtain ⟨t, hfirst⟩ := Lint.settles_unversioned true hidle hfile.1 hskip.1 hskip.2 hformat
      have hperform : s.perform linter (.lint p) =
          ⟨t, s.inquiries.map .call, .error (.fault fault)⟩ := (hfirst.request true).perform
      exact ⟨t, by simp [performAll, hperform]⟩

/-- So does a sweep. -/
theorem through_unversioned (report : SweepReport)
    (hpaths : List.Forall₂ (fun p file => s.disk.canonical p = .ok file ∧ file.Rooted) paths fs)
    (hidle : s.Idle) (hsome : s.lintable fs ≠ []) (hformat : s.formatFor linter = .error fault) :
    ∃ t linter', Settles Sweep.kind linter (Sweep.through s report paths)
      ⟨t, s.inquiries.map .call, .error (.fault fault)⟩ linter' := by
  induction hpaths with
  | nil => exact absurd (by simp [lintable, Sweep.lintable]) hsome
  | @cons p file paths fs hfile hpaths ih =>
    rw [Sweep.through_cons]
    by_cases hskip : s.settings.enable = false ∨ file.hasVcsPart = true
    · rw [lintable_cons_of_skipped hskip] at hsome
      obtain ⟨t, linter', hrest⟩ := ih hsome
      exact ⟨t, linter', (Lint.settles_skipped hfile.1 hskip).goOn hrest⟩
    · rw [not_or, Bool.not_eq_false, Bool.not_eq_true] at hskip
      obtain ⟨t, hfirst⟩ := Lint.settles_unversioned false hidle hfile.1 hskip.1 hskip.2 hformat
      have hended : Settles Sweep.kind (linter.after 1)
          (Sweep.goOn report p paths ⟨t, [], .ended (.error (.fault fault))⟩)
          ⟨t, [], .error (.fault fault)⟩ (linter.after 1) := .ended rfl
      have hstop := hfirst.goOn hended
      rw [Step.after, List.append_nil] at hstop
      exact ⟨t, _, hstop⟩

theorem lintRequests_unversioned {files : List String} (htargets : s.targets files = .ok paths)
    (hpaths : List.Forall₂ (fun p file => s.disk.canonical p = .ok file ∧ file.Rooted) paths fs)
    (hidle : s.Idle) (hsome : s.lintable fs ≠ []) (hformat : s.formatFor linter = .error fault) :
    ∃ t, s.performAll linter (lintRequests files) =
      ⟨t, s.inquiries.map .call, .error (.fault fault)⟩ := by
  rcases targets_cases hidle htargets with ⟨root, hroot, hfiles, hrequests⟩ | hrequests
  · rw [hrequests]
    have henable : s.settings.enable = true := by
      by_contra hdisabled
      exact hsome (if_neg hdisabled)
    have hne : paths ≠ [] := by
      rintro rfl
      obtain rfl := List.forall₂_nil_left_iff.1 hpaths
      exact hsome (by simp [lintable, Sweep.lintable])
    obtain ⟨t, linter', hsettles⟩ := through_unversioned {} hpaths hidle hsome hformat
    rw [← start_eq_through hidle henable hroot hfiles hne] at hsettles
    have hperform : s.perform linter .sweep = ⟨t, s.inquiries.map .call, .error (.fault fault)⟩ :=
      hsettles.requestSweep.perform
    exact ⟨t, by simp [performAll, hperform]⟩
  · rw [hrequests]
    exact performAll_unversioned hpaths hidle hsome hformat

end Unversioned

end Session

/-! ### The program -/

/-- How the program ends after linting, by what has come of the lints. Only a clean end is told. -/
structure Ending.Reflects (ending : Ending) (verdicts : List Verdict) (t : Terminal) : Prop where
  failure : ending.status = .ok Program.failure ↔ .failed ∈ verdicts
  findings : ending.status = .ok Program.findings ↔ .failed ∉ verdicts ∧ Verdict.Remains verdicts
  clean : ending.status = .ok Program.clean ↔ .failed ∉ verdicts ∧ ¬ Verdict.Remains verdicts
  told : ending.status = .ok Program.clean → ending.printed =
    (t.run ending.events).output.printed ++
      Terminal.printed (Notice.symbol t.emoji Notice.ok.mark ++ "No nu-lint diagnostics.").toList
  untold : ending.status ≠ .ok Program.clean → ending.printed =
    (t.run ending.events).output.printed

/-- How the log is configured does not matter for how the program ends. -/
theorem Ending.Reflects.withLog {ending : Ending} {verdicts : List Verdict} {t : Terminal}
    {log : Log} (h : ending.Reflects verdicts t) : { ending with log }.Reflects verdicts t :=
  ⟨h.failure, h.findings, h.clean, h.told, h.untold⟩

namespace Program

open Session

variable {w : Surroundings} {files : List String} {o : Options} {s : Session} {t : Terminal}

/-- What is on show once requests to lint have been carried out. -/
theorem count_run {calls : List Call} {verdicts : List Verdict}
    {step : Step (Except Failure (List Answer))} (h : Yields calls verdicts step)
    (hprints : t.Prints step.events) (hboard : t.board = []) :
    (t.run step.events).terminal.board.count ≠ 0 ↔ Verdict.Remains verdicts := by
  rw [(Terminal.run_of_prints hprints).2.2, hboard, ← Board.foldl_filter, h.shown]
  exact Verdict.count_ne_zero_iff verdicts

/-- A failure counts for more than diagnostics on show. -/
theorem lintStatus_cases {answers : List Answer} {verdicts : List Verdict}
    (hfailed : answers.any hasFailed = true ↔ .failed ∈ verdicts)
    (hcount : t.board.count ≠ 0 ↔ Verdict.Remains verdicts) :
    (.failed ∈ verdicts ∧ lintStatus answers t = failure) ∨
      (.failed ∉ verdicts ∧ Verdict.Remains verdicts ∧ lintStatus answers t = findings) ∨
      (.failed ∉ verdicts ∧ ¬ Verdict.Remains verdicts ∧ lintStatus answers t = clean) := by
  unfold lintStatus
  rw [← hfailed, ← hcount]
  by_cases hany : answers.any hasFailed = true
  · exact .inl ⟨hany, if_pos hany⟩
  · rw [if_neg hany]
    by_cases hshown : t.board.count ≠ 0
    · exact .inr (.inl ⟨hany, hshown, if_pos hshown⟩)
    · exact .inr (.inr ⟨hany, hshown, if_neg hshown⟩)

theorem lint_eq_showing (w : Surroundings) (files : List String) (o : Options) (s : Session)
    (t : Terminal) : lint w files o s t =
      showing t (s.performAll w.reply (lintRequests files)) fun t answers =>
        saying (if lintStatus answers t = clean then
          [Notice.ok.line o.emoji "No nu-lint diagnostics."] else [])
          { status := .ok (lintStatus answers t) } :=
  rfl

/-- What the program says about a status. -/
theorem saying_status (o : Options) (status : Nat) :
    saying (if status = clean then [Notice.ok.line o.emoji "No nu-lint diagnostics."] else [])
      { status := .ok status } = {
        printed := if status = clean then Terminal.printed
          (Notice.symbol o.emoji Notice.ok.mark ++ "No nu-lint diagnostics.").toList else ""
        status := .ok status } := by
  by_cases hclean : status = clean
  · rw [if_pos hclean, if_pos hclean, saying, Notice.line_ofString, Terminal.print_ofString]
    simp
  · rw [if_neg hclean, if_neg hclean]
    simp [saying, Terminal.print]

/-- If everything can be printed, the end is as has come of the lints. -/
theorem lint_of_yields {calls : List Call} {verdicts : List Verdict}
    (h : Yields calls verdicts (s.performAll w.reply (lintRequests files)))
    (hprints : t.Prints (s.performAll w.reply (lintRequests files)).events)
    (hboard : t.board = []) (hemoji : t.emoji = o.emoji) :
    (lint w files o s t).events = (s.performAll w.reply (lintRequests files)).events ∧
      (lint w files o s t).Reflects verdicts t := by
  have hcount := count_run h hprints hboard
  obtain ⟨hevents, hfault, -⟩ := Terminal.run_of_prints hprints
  obtain ⟨⟨answers, hvalue, hfailed⟩, -, -⟩ := h
  let step := s.performAll w.reply (lintRequests files)
  let status := lintStatus answers (t.run step.events).terminal
  have hlint : lint w files o s t = {
      printed := (t.run step.events).output.printed ++ if status = clean then Terminal.printed
        (Notice.symbol o.emoji Notice.ok.mark ++ "No nu-lint diagnostics.").toList else ""
      events := step.events
      status := .ok status } := by
    rw [lint_eq_showing]
    simp only [showing, step, hfault, hvalue, hevents, saying_status]
    rfl
  rw [hlint]
  refine ⟨rfl, ?_⟩
  rcases lintStatus_cases hfailed hcount with ⟨hfail, hstatus⟩ | ⟨hfail, hremains, hstatus⟩ |
    ⟨hfail, hremains, hstatus⟩
  · have hstatus' : status = 2 := hstatus
    constructor <;> simp [hstatus', hfail, failure, findings, clean]
  · have hstatus' : status = 1 := hstatus
    constructor <;> simp [hstatus', hfail, hremains, failure, findings, clean]
  · have hstatus' : status = 0 := hstatus
    constructor <;> simp [hstatus', hfail, hremains, failure, findings, clean, hemoji]

/-- If something cannot be printed, the program ends there with a fault. -/
theorem lint_of_not_prints
    (h : ¬ t.Prints (s.performAll w.reply (lintRequests files)).events) :
    (lint w files o s t).status = .error (.fault .unencodable) ∧
      (lint w files o s t).events <+: (s.performAll w.reply (lintRequests files)).events := by
  obtain ⟨hevents, hfault⟩ := Terminal.run_of_not_prints h
  rw [lint_eq_showing]
  simp only [showing, hfault]
  exact ⟨rfl, hevents⟩

/-- Where the linter is asked for its version and a fault comes up, the program ends with it. -/
theorem lint_unversioned {paths fs : List Path} {fault : Fault}
    (htargets : s.targets files = .ok paths)
    (hpaths : List.Forall₂ (fun p file => s.disk.canonical p = .ok file ∧ file.Rooted) paths fs)
    (hidle : s.Idle) (hsome : s.lintable fs ≠ []) (hformat : s.formatFor w.reply = .error fault) :
    (lint w files o s t).status = .error (.fault fault) ∧
      (lint w files o s t).events = s.inquiries.map .call := by
  obtain ⟨u, hperform⟩ := lintRequests_unversioned htargets hpaths hidle hsome hformat
  have hprints : t.Prints (s.inquiries.map .call) := by
    intro e he line hline
    obtain ⟨call, -, rfl⟩ := List.mem_map.1 he
    cases hline
  obtain ⟨hevents, hfault, -⟩ := Terminal.run_of_prints hprints
  rw [lint_eq_showing, hperform]
  simp only [showing, hfault, hevents]
  exact ⟨rfl, trivial⟩

/-- The workspace has a name that can be looked up. -/
theorem rooted_of_workspace {disk : Disk} {text : String} {root : Path} {isFile : Bool}
    (hdisk : disk.Spellable) (htext : '\x00' ∉ text.toList)
    (h : workspace disk text = .ok (root, isFile)) : root.Rooted := by
  obtain ⟨resolved, hresolved, h⟩ := bind_eq_ok.1 h
  cases resolved with
  | none => cases h
  | some path =>
    obtain ⟨rfl, -⟩ := Prod.mk.inj (Except.ok.inj h)
    have hletters : .char '\x00' ∉ (Letters.ofString text : Spelling) := by simpa using htext
    obtain ⟨resolved', hresolved', hclean⟩ :=
      Disk.resolve_isOk hdisk (Path.clean_ofText hletters)
    obtain rfl := Except.ok.inj (hresolved'.symm.trans hresolved)
    exact ⟨Disk.isAbsolute_of_resolve hresolved, Path.nulFree_iff.2 (hclean path rfl)⟩

/-- With settings that can be read, a session for the workspace is opened. -/
theorem exists_openSession {disk : Disk} {env : Settings.Environment} {root : Path}
    {settings : Settings} (format : Option Format) (executable : Option String)
    (hdisk : disk.Spellable) (hroot : root.Rooted)
    (h : Settings.load disk (some root) env = .ok settings) :
    ∃ s, openSession disk env (some root) format executable = .ok s ∧ s.Idle ∧ s.disk = disk ∧
      s.listed = none := by
  obtain ⟨base, hbase, hrooted⟩ := Disk.canonical_of_rooted hdisk hroot
  let chosen := { settings with executablePath := executable.getD settings.executablePath }
  refine ⟨{ disk, settings := chosen, workspace := some base, pinned := format }, ?_,
    ⟨hdisk, ⟨base, rfl, hrooted⟩, rfl, rfl, rfl, rfl⟩, rfl, rfl⟩
  simp [openSession, h, Session.opened, hbase, chosen]

/-- The status says what has come of the lints, and nothing is linted with unusable settings. The
linter has to have a version that can be read, if it is asked for one, and what is shown has to be
printable. Otherwise the program breaks off. -/
theorem lint_status {args : List String} {pinned : Option Format} {root : Path}
    (hdisk : w.disk.Listable) (htask : Task.ofWords? args = some (.lint files o))
    (hpinned : formatOption o.format = some pinned)
    (hroot : workspace w.disk o.root = .ok (root, false)) (htext : '\x00' ∉ o.root.toList)
    (hfiles : ∀ file ∈ files, '\x00' ∉ file.toList ∧
      ∃ f, w.disk.canonical (.ofText file) = .ok f) :
    (∀ e, Settings.load w.disk (some root) w.environment = .error (.lint e) →
      (∀ message : String, e.message = message → (run w args).status = .ok failure) ∧
      (¬ e.message.IsProper → (run w args).status = .error (.fault .unencodable)) ∧
      (run w args).events = []) ∧
    (∀ settings, Settings.load w.disk (some root) w.environment = .ok settings →
      ∃ s paths fs, openSession w.disk w.environment (some root) pinned o.executable = .ok s ∧
        s.targets files = .ok paths ∧ paths.mapM w.disk.canonical = .ok fs ∧
        (∀ format, (s.lintable fs ≠ [] → s.formatFor w.reply = .ok format) →
          let linter := w.reply.after s.inquiries.length
          let t : Terminal := { root := some root, emoji := o.emoji }
          let events := (s.performAll w.reply (lintRequests files)).events
          (∀ e ∈ (s.lintable fs).zip (linter.replies (s.callsFor format (s.lintable fs))),
            Lint.Answers s e.1 format e.2) →
          ∃ verdicts, Verdicts s format linter (s.lintable fs) verdicts ∧
            verdicts.length = (s.lintable fs).length ∧
            events.filterMap Event.call? = s.lintCalls format fs ∧
            (t.Prints events → (run w args).events = events ∧ (run w args).Reflects verdicts t) ∧
            (¬ t.Prints events → (run w args).status = .error (.fault .unencodable) ∧
              (run w args).events <+: events)) ∧
        ∀ fault, s.lintable fs ≠ [] → s.formatFor w.reply = .error fault →
          (run w args).status = .error (.fault fault) ∧
            (run w args).events = s.inquiries.map .call) := by
  have hrun : run w args = { inWorkspace w o pinned (lint w files o) with
      log := logOf (.lint files o) } := by
    simp [run, htask, perform, hpinned]
  rw [hrun]
  unfold inWorkspace
  simp only [hroot]
  constructor
  · intro e he
    have hopen : openSession w.disk w.environment (some root) pinned o.executable =
        .error (.lint e) := by simp [openSession, he]
    simp only [hopen]
    refine ⟨fun message hmessage => by rw [warned_of_message hmessage], fun hmessage => ?_,
      events_warned o e⟩
    rw [warned_of_not_isProper hmessage]
    rfl
  · intro settings hsettings
    have hrooted := rooted_of_workspace hdisk.toSpellable htext hroot
    obtain ⟨s, hopen, hidle, hsame, hlisted⟩ :=
      exists_openSession pinned o.executable hdisk.toSpellable hrooted hsettings
    rw [← hsame] at hdisk hfiles
    obtain ⟨paths, fs, htargets, hfs, hpaths⟩ := exists_targets hdisk hidle hlisted hfiles
    rw [hsame] at hfs
    refine ⟨s, paths, fs, hopen, htargets, hfs, fun format hformat hanswers => ?_,
      fun fault hsome hformat => ?_⟩
    · have hlinted : ∀ f ∈ s.lintable fs, f.Rooted := by
        intro f hf
        refine Disk.rooted_of_forall₂ hpaths f ?_
        unfold lintable at hf
        split at hf
        · exact List.mem_of_mem_filter hf
        · cases hf
      obtain ⟨verdicts, hverdicts, hlength⟩ := exists_verdicts hidle hlinted hanswers
      have hyields := yields_lintRequests htargets hpaths hidle hformat hverdicts
      simp only [hopen]
      exact ⟨verdicts, hverdicts, hlength, hyields.calls,
        fun hprints => (lint_of_yields hyields hprints rfl rfl).imp_right .withLog,
        lint_of_not_prints⟩
    · simp only [hopen]
      exact lint_unversioned htargets hpaths hidle hsome hformat

end Program

namespace Sample

open Program Session

/-- The session in which the program lints when there is nothing on the disk. -/
def terminalSession : Session := { disk, workspace := some .root }

/-- The file that is named `a.nu` there. -/
def named : Path := ⟨.root, ["a.nu"]⟩

theorem listable_disk : disk.Listable := by
  have hempty (place : List Spelling) (entries : List (Spelling × Node))
      (h : disk.tree.find? place = some (.directory entries)) : entries = [] := by
    cases place with
    | nil => simpa [disk, Node.find?] using h.symm
    | cons name rest => simp [disk, Node.find?] at h
  refine ⟨spellable_disk, fun place entries h => ?_⟩
  simp [hempty place entries h]

theorem task_named : Task.ofWords? ["lint", "a.nu"] = some (.lint ["a.nu"] {}) := by
  cbv

theorem workspace_current : workspace disk "." = .ok (.root, false) := by
  cbv

theorem canonical_named : disk.canonical (.ofText "a.nu") = .ok named := by
  unfold named
  cbv

theorem load_defaults : Settings.load disk (some .root) [] = .ok {} := by
  have hmerged : Settings.mergedFields disk (some .root) [] = .ok [] := by cbv
  have hcheck : Settings.check.run Settings.schema (.table []) = .ok {} := rfl
  simp [Settings.load, hmerged, hcheck]

theorem openSession_nothing :
    openSession disk [] (some .root) none none = .ok terminalSession := by
  have hroot : disk.canonical .root = .ok .root := by cbv
  simp [openSession, load_defaults, opened, hroot, terminalSession]

/-- How the program ends and what it does when it lints the file. -/
theorem run_named (reply : Linter) :
    let linted := lint { disk, reply } ["a.nu"] {} terminalSession { root := some .root }
    (run { disk, reply } ["lint", "a.nu"]).status = linted.status ∧
      (run { disk, reply } ["lint", "a.nu"]).events = linted.events := by
  simp [run, task_named, Program.perform, formatOption, inWorkspace, workspace_current,
    openSession_nothing]

theorem lintable_named : terminalSession.lintable [named] = [named] := by
  decide

theorem idle_terminalSession : terminalSession.Idle :=
  ⟨listable_disk.toSpellable, ⟨.root, rfl, rfl, rfl⟩, rfl, rfl, rfl, rfl⟩

theorem rooted_named : named.Rooted :=
  ⟨rfl, rfl⟩

/-- A linter that tells its version, finds something in the first file and replies as given to the
run for the second one. -/
def findingFirst (last : Reply) : Linter where
  reply
    | 0, _ => .ok ⟨[], 0, "nu-lint 9.0.0", ""⟩
    | 1, call => spotting "a.nu" "x" call
    | _, _ => last

/-- The reply of a linter that finds nothing. -/
def quiet : Reply := .ok ⟨[], 0, "", ""⟩

/-- The reply of a linter that crashes. -/
def crashed : Reply := .error (.lint (.exitedBadly [] 3 ""))

/-- What the terminal is told when two files are named. -/
def toldOf (last : Reply) (second : String) : List Event :=
  (terminalSession.performAll (findingFirst last) (lintRequests ["a.nu", second])).events

theorem formatFor_findingFirst (last : Reply) :
    terminalSession.formatFor (findingFirst last) = .ok .ranged := by
  have hversion : Version.ofReply (.ok ⟨[], 0, "nu-lint 9.0.0", ""⟩) = .ok (some ⟨9, 0, 0⟩) := by
    decide +kernel
  have hreply : (findingFirst last).reply 0 (Call.forVersion terminalSession.settings) =
      .ok ⟨[], 0, "nu-lint 9.0.0", ""⟩ := rfl
  have hknown : terminalSession.knownFormat? = none := rfl
  rw [formatFor, hknown]
  dsimp only
  rw [hreply, hversion]
  rfl

theorem parse_spottedText : Report.parse 900 .ranged (spottedText "a.nu" "x").toList =
    .ok (.ranged [("a.nu", [spotted "x"])] {}) := by
  decide +kernel

theorem parse_blank : Report.parse 900 .ranged [] = .ok (.ranged [] {}) := rfl

theorem answers_spotting (call : Call) :
    Lint.Answers terminalSession named .ranged (spotting "a.nu" "x" call) := by
  have hreported : terminalSession.disk.reportedAs terminalSession.workspace (some named.parent)
      "a.nu" = .ok named := by decide +kernel
  refine .inr ⟨_, parse_spottedText, fun entry hentry => ?_⟩
  obtain rfl := List.mem_singleton.1 hentry
  refine ⟨⟨_, hreported⟩, fun finding hfinding remark hremark => ?_⟩
  obtain rfl := Record.finding.inj (List.mem_singleton.1 hfinding)
  cases hremark

theorem verdict_spotting (call : Call) :
    Lint.verdict terminalSession named .ranged (spotting "a.nu" "x" call) =
      .ok (.completed named [spottedShown "x"]) := by
  change Lint.verdict terminalSession named .ranged (.ok ⟨[], 1, spottedText "a.nu" "x", ""⟩) = _
  decide +kernel

theorem answers_quiet (file : Path) : Lint.Answers terminalSession file .ranged quiet :=
  .inr ⟨_, parse_blank, by simp [Report.entries]⟩

/-- Something is found in a file. The program says so although nothing is found in another one, but
not if another one cannot be linted, or if nothing is found in the same one later on. -/
theorem lint_status_findingFirst :
    disk.Listable ∧ workspace disk "." = .ok (.root, false) ∧
      disk.canonical (.ofText "a.nu") = .ok named ∧
      (run { disk, reply := findingFirst quiet } ["lint", "a.nu", "b.nu"]).status =
        .ok Program.findings ∧
      (run { disk, reply := findingFirst crashed } ["lint", "a.nu", "b.nu"]).status =
        .ok Program.failure ∧
      (run { disk, reply := findingFirst quiet } ["lint", "a.nu", "./a.nu"]).status =
        .ok Program.clean := by
  have hends {second : String} {file : Path} {last : Reply} {v : Verdict}
      (htask : Task.ofWords? ["lint", "a.nu", second] = some (.lint ["a.nu", second] {}))
      (hsecond : '\x00' ∉ second.toList) (hfile : disk.canonical (.ofText second) = .ok file)
      (hlintable : terminalSession.lintable [named, file] = [named, file])
      (hrooted : file.Rooted) (hanswers : Lint.Answers terminalSession file .ranged last)
      (hv : Lint.verdict terminalSession file .ranged last = .ok v)
      (hprints : ({ root := some .root } : Terminal).Prints (toldOf last second)) :
      (run { disk, reply := findingFirst last } ["lint", "a.nu", second]).Reflects
        [.completed named [spottedShown "x"], v] { root := some .root } := by
    have hfiles : ∀ f ∈ ["a.nu", second], '\x00' ∉ f.toList ∧
        ∃ p, disk.canonical (.ofText f) = .ok p := by
      intro f hf
      rcases List.mem_pair.1 hf with rfl | rfl
      · exact ⟨by decide, _, canonical_named⟩
      · exact ⟨hsecond, _, hfile⟩
    have hlint := @lint_status { disk, reply := findingFirst last } ["a.nu", second] {}
      ["lint", "a.nu", second] none .root listable_disk htask rfl workspace_current (by decide)
      hfiles
    obtain ⟨s, paths, fs, hopen, htargets, hfs, hrest⟩ := hlint.2 {} load_defaults
    obtain rfl := Except.ok.inj (openSession_nothing.symm.trans hopen)
    obtain rfl := Except.ok.inj htargets
    obtain rfl : [named, file] = fs := by simpa [canonical_named, hfile] using hfs
    have hends := hrest.1 .ranged fun _ => formatFor_findingFirst last
    obtain ⟨first, hfirst⟩ := idle_terminalSession.exists_callFor? rooted_named .ranged
    obtain ⟨other, hother⟩ := idle_terminalSession.exists_callFor? hrooted .ranged
    have hcalls : terminalSession.callsFor .ranged [named, file] = [first, other] := by
      simp [callsFor, hfirst, hother]
    rw [hlintable, hcalls] at hends
    obtain ⟨verdicts, hverdicts, -, -, hreflects, -⟩ := hends (by
      intro e he
      obtain rfl | rfl : e = (named, spotting "a.nu" "x" first) ∨ e = (file, last) :=
        List.mem_pair.1 he
      · exact answers_spotting first
      · exact hanswers)
    have hgiven : Verdicts terminalSession .ranged ((findingFirst last).after 1) [named, file]
        [.completed named [spottedShown "x"], v] := by
      rw [Verdicts, hcalls]
      exact .cons (verdict_spotting first) (.cons hv .nil)
    obtain rfl := hverdicts.unique hgiven
    exact (hreflects hprints).2
  have hother := @hends "b.nu" ⟨.root, ["b.nu"]⟩
  refine ⟨listable_disk, workspace_current, canonical_named, ?_, ?_, ?_⟩
  · have h := @hother quiet (.completed ⟨.root, ["b.nu"]⟩ []) (by cbv) (by decide)
      (by decide +kernel) (by decide) ⟨rfl, rfl⟩ (answers_quiet _) (by decide +kernel)
      (by decide +kernel)
    exact h.findings.2 ⟨by simp, by decide +kernel⟩
  · have h := @hother crashed .failed (by cbv) (by decide) (by decide +kernel) (by decide)
      ⟨rfl, rfl⟩ ⟨_, rfl⟩ rfl (by decide +kernel)
    exact h.failure.2 (by simp)
  · have h := @hends "./a.nu" named quiet (.completed named []) (by cbv) (by decide)
      (by decide +kernel) (by decide) rooted_named (answers_quiet _) (by decide +kernel)
      (by decide +kernel)
    exact h.clean.2 ⟨by simp, by decide +kernel⟩

theorem versionText_eq (n : Nat) : ∃ rest, versionText n = 'n' :: 'u' :: '-' :: rest :=
  ⟨_, rfl⟩

/-- No value of JSON starts as a version does. -/
theorem json_versionText (room n : Nat) : ∃ line column offset,
    Data.Json.parse room (versionText n) = .error (.malformed .value line column offset) := by
  obtain ⟨rest, hrest⟩ := versionText_eq n
  have hvalue (fuel : Nat) : Data.Json.value (fuel + 1) room (versionText n) =
      .error (.fault .value (versionText n)) := by
    have hword : Data.Json.word? (versionText n) = none := by
      rw [hrest]
      simp [Data.Json.word?, Data.Json.words]
    rw [hrest] at hword ⊢
    simp [Data.Json.value, hword, Data.Json.number, Data.Json.whole]
  have hspace : Data.Json.skipSpace (versionText n) = versionText n := by
    rw [hrest]
    rfl
  unfold Data.Json.parse
  dsimp only
  split
  next hmark =>
    rw [hrest] at hmark
    simp at hmark
  · rw [hspace, hvalue]
    exact ⟨_, _, _, rfl⟩

/-- What tells a version is no report. -/
theorem parse_versionText (room : Nat) (format : Format) (n : Nat) :
    ∃ e, Report.parse room format (versionText n) = .error (.lint e) := by
  obtain ⟨rest, hrest⟩ := versionText_eq n
  have hblank : ¬ (versionText n).all Text.isBlank = true := by
    have hn : Text.isBlank 'n' = false := by decide
    rw [hrest, List.all_cons, hn]
    exact Bool.false_ne_true
  obtain ⟨line, column, offset, hjson⟩ := json_versionText room n
  unfold Report.parse Report.ofJson
  rw [if_neg hblank, hjson]
  exact ⟨_, rfl⟩

/-- The version's number is too long to be read, and the program ends with a fault before it has
linted the file. The text that tells the version is no report. -/
theorem lint_ends_with_fault :
    let ending := run { disk, reply := longVersioned } ["lint", "a.nu"]
    (∀ format, ∃ e, Report.parse disk.room format (versionText 4301) = .error (.lint e)) ∧
      ending.status = .error (.fault .oversizedInteger) ∧
      ending.events = [.call (Call.forVersion {})] := by
  intro ending
  refine ⟨fun format => parse_versionText _ format 4301, ?_⟩
  have hformat : terminalSession.formatFor longVersioned = .error .oversizedInteger := by
    have hreply := ofReply_longVersioned {}
    have hknown : terminalSession.knownFormat? = none := rfl
    have hsettings : terminalSession.settings = {} := rfl
    rw [formatFor, hknown, hsettings]
    dsimp only
    rw [hreply]
    rfl
  have hpaths : List.Forall₂ (fun p file => disk.canonical p = .ok file ∧ file.Rooted)
      [.ofText "a.nu"] [named] := .cons ⟨canonical_named, rooted_named⟩ .nil
  have htargets : terminalSession.targets ["a.nu"] = .ok [.ofText "a.nu"] := rfl
  have hsome : terminalSession.lintable [named] ≠ [] := by simp [lintable_named]
  have hrun := run_named longVersioned
  have hends := @lint_unversioned { disk, reply := longVersioned } ["a.nu"] {} terminalSession
    { root := some .root, emoji := true } _ _ _ htargets hpaths idle_terminalSession hsome hformat
  exact ⟨hrun.1.trans hends.1, hrun.2.trans hends.2⟩

end Sample

end LintBridge
