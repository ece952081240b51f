import LintBridge.Proofs.Atomicity

/-!
# LintBridge.Proofs.Records

The records in the store and the diagnostics on show, against what has happened in a session. A
`Completion` is a lint run that has completed, and `Schedule.completions` lists those of some moves.
Until the session is disposed of, the store holds for every file the records in the output of its
last completed run, and what is on show is made from these records. This takes a tree without loops:
a run looks up its file once more before it stores anything, and has to find the same file.

Main results:

* `Run.logs_next`: what a step stores and shows, in terms of the run that it completes.
* `Schedule.mirrors_play`: the store and what is on show mirror the completed runs.
-/

namespace LintBridge

/-- A lint run that has completed: its file, and the output in which its records were found. -/
structure Completion where
  file : Path
  format : Format
  output : String

namespace Completion

/-- The records about the file in the output. -/
def records (c : Completion) (disk : Disk) (workspace : Option Path) : List Record :=
  match Report.parse disk.room c.format c.output.toList with
  | .ok report => report.about disk workspace (some c.file.parent) c.file
  | .error _ => []

/-- The last of some completed runs for a file. -/
def latest? (f : Path) (history : List Completion) : Option Completion :=
  history.reverse.find? (·.file = f)

theorem latest?_concat (f : Path) (history : List Completion) (c : Completion) :
    latest? f (history ++ [c]) = if c.file = f then some c else latest? f history := by
  unfold latest?
  rw [List.reverse_append, List.reverse_singleton, List.singleton_append, List.find?_cons]
  by_cases h : c.file = f <;> simp [h]

theorem isSome_latest? {f : Path} {history : List Completion} :
    (latest? f history).isSome ↔ ∃ c ∈ history, c.file = f := by
  simp [latest?]

end Completion

/-- The run for a file that a step of a lint run completes. -/
def Lint.completion? (s : Session) (reply : Call → Reply) (lint : Lint) : Option Completion :=
  match lint.stage, (lint.next s reply).value with
  | .running format call, .ended (.ok .completed) =>
    match reply call with
    | .ok completed => some ⟨lint.file, format, completed.stdout⟩
    | .error _ => none
  | _, _ => none

/-- The run for a file that a step of a run completes. -/
def Run.completion? (s : Session) (reply : Call → Reply) (run : Run) : Option Completion :=
  run.lint?.bind (Lint.completion? s reply)

namespace Schedule

/-- The run for a file that a move completes. -/
def completion? (s : Schedule) : Move → Option Completion
  | .next number reply =>
    match s.waiting.lookup number with
    | some run => if s.mayGoOn number run then run.completion? s.session reply else none
    | none => none
  | _ => none

/-- The runs for files that some moves complete, in order. -/
def completions (s : Schedule) : List Move → List Completion
  | [] => []
  | m :: rest => (s.completion? m).toList ++ (s.move m).1.completions rest

theorem completions_concat (s : Schedule) (moves : List Move) (m : Move) :
    s.completions (moves ++ [m]) =
      s.completions moves ++ ((s.play moves).1.completion? m).toList := by
  induction moves generalizing s with
  | nil => simp [completions, play]
  | cons first rest ih =>
    rw [List.cons_append, completions, completions, ih, List.append_assoc]
    rfl

end Schedule

/-! ### What a step stores and shows -/

theorem Board.foldl_silent {events : List Event} (h : ∀ e ∈ events, e.isSilent) (board : Board) :
    events.foldl Board.after board = board := by
  induction events generalizing board with
  | nil => rfl
  | cons e rest ih =>
    have he : board.after e = board := by
      have := h e (by simp)
      cases e with
      | publish file diagnostics => simp [Event.isSilent] at this
      | clear => simp [Event.isSilent] at this
      | _ => rfl
    rw [List.foldl_cons, he]
    exact ih (fun e he => h e (List.mem_cons_of_mem _ he)) board

/-- A step that completes a run stores and shows its records, in the place of those before. One that
completes none keeps everything. -/
def Session.Logs (s : Session) (t : Session) (events : List Event) : Option Completion → Prop
  | none => t.store = s.store ∧ ∀ e ∈ events, e.isSilent
  | some c => ∃ report diagnostics,
      Report.parse s.disk.room c.format c.output.toList = .ok report ∧
      t.store.slices = s.store.slices.put c.file (c.records s.disk s.workspace) ∧
      shownAll s.disk (c.records s.disk s.workspace) c.file s.workspace = .ok diagnostics ∧
      ∀ board : Board, events.foldl Board.after board = board.put c.file diagnostics

section Steps

variable {s t u : Session} {a b : Stake} {events events' : List Event} {c? : Option Completion}
  {reply : Call → Reply} {lint : Lint} {run : Run}

theorem Session.Quiet.logs (h : s.Quiet a t events b) : s.Logs t events none :=
  ⟨h.store, h.silent⟩

theorem Session.Logs.trans_quiet (h : s.Logs t events c?) (hq : t.Quiet a u events' b) :
    s.Logs u (events ++ events') c? := by
  cases c? with
  | none =>
    refine ⟨hq.store.trans h.1, fun e he => ?_⟩
    rcases List.mem_append.1 he with he | he
    · exact h.2 e he
    · exact hq.silent e he
  | some c =>
    obtain ⟨report, diagnostics, hreport, hslices, hshown, hboard⟩ := h
    refine ⟨report, diagnostics, hreport, by rw [hq.store, hslices], hshown, fun board => ?_⟩
    rw [List.foldl_append, hboard, Board.foldl_silent hq.silent]

theorem Lint.completion?_of_found {format : Format} {call : Call} {completed : Completed}
    (hstage : lint.stage = .running format call) (hreply : reply call = .ok completed)
    (hvalue : (lint.next s reply).value = .ended (.ok .completed)) :
    lint.completion? s reply = some ⟨lint.file, format, completed.stdout⟩ := by
  simp [completion?, hstage, hvalue, hreply]

theorem Lint.completion?_eq_none (h : (lint.next s reply).value ≠ .ended (.ok .completed)) :
    lint.completion? s reply = none := by
  unfold completion?
  split
  next hvalue => exact absurd hvalue h
  next => rfl

/-- A step of a lint run that meets no failure. -/
theorem Lint.logs_next (hfile : lint.file ∈ s.inFlight)
    (hc : s.disk.canonical lint.file = .ok lint.file)
    (hok : ∀ failure, (lint.next s reply).value ≠ .ended (.error failure)) :
    s.Logs (lint.next s reply).session (lint.next s reply).events
      (lint.completion? s reply) := by
  cases h : lint.found? s reply with
  | none =>
    obtain ⟨hquiet, hvalue⟩ := passes_next hfile h
    rw [completion?_eq_none hvalue]
    exact hquiet.logs
  | some found =>
    obtain ⟨format, call, completed, report, target, hstage, hreply, -, hreport, htarget, rfl⟩ :=
      found?_eq_some h
    obtain rfl : lint.file = target := Except.ok.inj (hc.symm.trans htarget)
    have hrecords : (⟨lint.file, format, completed.stdout⟩ : Completion).records s.disk
        s.workspace = report.about s.disk s.workspace (some lint.file.parent) lint.file := by
      simp [Completion.records, hreport]
    have hcompletion : (lint.next s reply).value = .ended (.ok .completed) →
        lint.completion? s reply = some ⟨lint.file, format, completed.stdout⟩ :=
      completion?_of_found hstage hreply
    -- two of the three ways in which records are stored end with a fault
    have hstep := stores_next h
    revert hok hcompletion hstep
    generalize lint.next s reply = step
    intro hok hcompletion hstep
    cases hstep with
    | blocked => exact absurd rfl (hok _)
    | torn => exact absurd rfl (hok _)
    | @published store diagnostics hstore hshown =>
      rw [hcompletion rfl]
      refine ⟨report, diagnostics, hreport, ?_, by rw [hrecords]; exact hshown, fun _ => rfl⟩
      rw [hrecords]
      simp only [Store.replace, hc, ok_bind, pure_eq_ok] at hstore
      rw [← Except.ok.inj hstore]

/-- A step of a run that meets no failure stores what it completes, and nothing else. -/
theorem Run.logs_next (hfile : ∀ f ∈ run.stake.file, f ∈ s.inFlight)
    (hc : ∀ f ∈ run.file?, s.disk.canonical f = .ok f)
    (hok : ∀ failure, (run.next s reply).value ≠ .ended (.error failure)) :
    s.Logs (run.next s reply).session (run.next s reply).events (run.completion? s reply) := by
  cases run with
  | lint l =>
    refine Lint.logs_next (hfile l.file rfl) (hc l.file rfl) fun failure hv => ?_
    exact hok failure (by simp [next, Step.lift, hv, Progress.map, Except.map])
  | sweep w =>
    have hlint : s.Logs (w.lint.next s reply).session (w.lint.next s reply).events
        (w.lint.completion? s reply) := by
      refine Lint.logs_next (hfile w.lint.file rfl) (hc w.lint.file rfl) fun failure hv => ?_
      exact hok failure (by simp [next, Sweep.next, Step.lift, hv, Progress.map, Except.map])
    refine Sweep.next_elim (P := fun t events _ => s.Logs t events (w.lint.completion? s reply))
      (fun _ _ => hlint) fun _ u events b hquiet => ?_
    exact hlint.trans_quiet hquiet
  | _ => exact (quiet_of_lint?_eq_none rfl).logs

end Steps

/-! ### The store and what is on show -/

namespace Schedule

open Completion

variable {opened : Session} {history : List Completion} {s : Schedule} {board : Board}

/-- The store holds the records of the last completed run for every file, and they are on show. -/
structure Current (opened : Session) (history : List Completion) (s : Schedule) (board : Board) :
    Prop where
  canonical : ∀ c ∈ history, opened.disk.canonical c.file = .ok c.file
  parsed : ∀ c ∈ history, ∃ report,
    Report.parse opened.disk.room c.format c.output.toList = .ok report
  slices : ∀ f, s.session.store.slices.get? f =
    (latest? f history).map (·.records opened.disk opened.workspace)
  shown : ∀ f, (board.get? f).map .ok =
    (s.session.store.slices.get? f).map (shownAll opened.disk · f opened.workspace)

/-- Storing and showing what a run has completed keeps the two up to date. -/
theorem Current.logs (h : Current opened history s board) {t : Session} {events : List Event}
    {c? : Option Completion} (hground : opened.SameGround s.session)
    (hlogs : s.session.Logs t events c?)
    (hc : ∀ c ∈ c?, opened.disk.canonical c.file = .ok c.file) {s' : Schedule}
    (hs' : s'.session = t) :
    Current opened (history ++ c?.toList) s' (events.foldl Board.after board) := by
  subst hs'
  cases c? with
  | none =>
    obtain ⟨hstore, hsilent⟩ := hlogs
    rw [Board.foldl_silent hsilent]
    refine ⟨by simpa using h.canonical, by simpa using h.parsed, ?_, ?_⟩
    · rw [hstore]
      simpa using h.slices
    · rw [hstore]
      exact h.shown
  | some c =>
    obtain ⟨report, diagnostics, hreport, hslices, hshown, hboard⟩ := hlogs
    rw [hground.disk] at hreport
    rw [hground.disk, hground.workspace] at hslices hshown
    rw [hboard]
    refine ⟨fun c' hc' => ?_, fun c' hc' => ?_, fun f => ?_, fun f => ?_⟩
    · rcases List.mem_append.1 hc' with hc' | hc'
      · exact h.canonical c' hc'
      · exact hc c' (by simpa [eq_comm] using hc')
    · rcases List.mem_append.1 hc' with hc' | hc'
      · exact h.parsed c' hc'
      · obtain rfl : c' = c := by simpa using hc'
        exact ⟨report, hreport⟩
    · -- `c` is now the latest completion of its file; those of other files are as before
      rw [hslices, Option.toList_some, latest?_concat]
      by_cases hf : c.file = f
      · rw [← hf, FileMap.get?_put_self]
        simp
      · rw [FileMap.get?_put_of_ne _ _ (Ne.symm hf), if_neg hf]
        exact h.slices f
    · rw [hslices]
      by_cases hf : c.file = f
      · rw [← hf, FileMap.get?_put_self, FileMap.get?_put_self]
        simp [hshown]
      · rw [FileMap.get?_put_of_ne _ _ (Ne.symm hf), FileMap.get?_put_of_ne _ _ (Ne.symm hf)]
        exact h.shown f

theorem file?_of_completion? {s : Session} {reply : Call → Reply} {run : Run} {c : Completion}
    (h : c ∈ run.completion? s reply) : run.file? = some c.file := by
  obtain ⟨lint, hlint, hc⟩ := Option.bind_eq_some_iff.1 h
  have hfile : c.file = lint.file := by
    unfold Lint.completion? at hc
    split at hc
    · split at hc
      · rw [← Option.some.inj hc]
      · simp at hc
    · simp at hc
  rw [file?_of_lint? hlint, hfile]

section Moves

variable (hdisk : opened.disk.Grounded) (hfree : opened.disk.tree.LoopFree)
include hdisk hfree

/-- A run looks up the file that it holds, and finds the same file. -/
theorem Traced.canonical_file {moves : List Move} (h : Traced opened moves s) {e : Nat × Run}
    (he : e ∈ s.waiting) {f : Path} (hf : f ∈ e.2.file?) : opened.disk.canonical f = .ok f := by
  obtain ⟨request, -, hserves⟩ := h.serves e he
  obtain ⟨p, -, hc⟩ := hserves.named f hf
  exact Disk.canonical_canonical hdisk hfree hc

/-- A move keeps the store and what is on show up to date, unless a request ends with a failure. -/
theorem Current.move {moves : List Move} (htraced : Traced opened moves s)
    (h : Current opened history s board) (m : Move) (hm : m ≠ .dispose)
    (hok : ∀ e ∈ (s.move m).1.ended, ∃ a, e.2 = .ok a) :
    Current opened (history ++ (s.completion? m).toList) (s.move m).1
      ((s.move m).2.foldl Board.after board) := by
  revert hm hok
  refine move_cases (motive := fun m r => m ≠ .dispose → (∀ e ∈ r.1.ended, ∃ a, e.2 = .ok a) →
    Current opened (history ++ (s.completion? m).toList) r.1 (r.2.foldl Board.after board))
    ?start ?next ?stay ?dispose ?document m
  case start =>
    intro request _ _
    rw [events_record]
    exact h.logs htraced.ground (s.session.quiet_request request).logs (by simp)
      (session_record _ _ _)
  case next =>
    intro number reply run hrun hgo _ hok
    have hc? : s.completion? (.next number reply) = run.completion? s.session reply := by
      simp [Schedule.completion?, hrun, hgo]
    obtain ⟨before, after, heq, -⟩ := htraced.apart.exists_split hrun
    have hmem : (number, run) ∈ s.waiting := by simp [heq]
    have hcanonical := fun f (hf : f ∈ run.file?) =>
      htraced.canonical_file hdisk hfree hmem hf
    have hheld := htraced.apart.mem_inFlight hrun
    -- a failure would be on record
    have hvalue : ∀ failure, (run.next s.session reply).value ≠ .ended (.error failure) := by
      intro failure hv
      obtain ⟨a, ha⟩ := hok _ (result_record hv)
      simp at ha
    have hlogs := Run.logs_next hheld (by rw [htraced.ground.disk]; exact hcanonical) hvalue
    rw [hc?, events_record]
    exact h.logs htraced.ground hlogs
      (fun c hc => hcanonical c.file (file?_of_completion? hc)) (session_record _ _ _)
  case stay =>
    intro number reply hstay _ _
    have hc? : s.completion? (.next number reply) = none := by
      simp only [Schedule.completion?]
      split
      next run hrun => exact if_neg (hstay run hrun)
      next => rfl
    rw [hc?]
    simpa using h
  case dispose => exact fun hm _ => absurd rfl hm
  case document =>
    intro name document _ _
    have hsame : s.session.Logs (s.session.setDocument name document) [] none :=
      ⟨rfl, by simp⟩
    exact h.logs htraced.ground hsame (by simp) rfl

theorem current_play (hstore : opened.store = {}) (hfresh : opened.inFlight = [])
    (moves : List Move) (hm : ∀ m ∈ moves, m ≠ .dispose)
    (hok : ∀ e ∈ (({ session := opened } : Schedule).play moves).1.ended, ∃ a, e.2 = .ok a) :
    Current opened (({ session := opened } : Schedule).completions moves)
      (({ session := opened } : Schedule).play moves).1
      ((({ session := opened } : Schedule).play moves).2.foldl Board.after []) := by
  revert hm hok
  refine play_induction (motive := fun moves s events => (∀ m ∈ moves, m ≠ .dispose) →
    (∀ e ∈ s.ended, ∃ a, e.2 = .ok a) →
    Current opened (({ session := opened } : Schedule).completions moves) s
      (events.foldl Board.after [])) ?_ ?_ moves
  · intro _ _
    exact ⟨by simp [completions], by simp [completions], fun f => by
      simp [hstore, completions, latest?, FileMap.get?], fun f => by
      simp [hstore, FileMap.get?]⟩
  · intro moves m ih hm hok
    have hbefore := ih (fun m' hm' => hm m' (List.mem_append_left _ hm'))
      fun e he => hok e (ended_move m he)
    rw [completions_concat, List.foldl_append]
    exact hbefore.move hdisk hfree (traced_play hfresh moves) m (hm m (by simp)) hok

end Moves

/-! ### After the session has been disposed of -/

/-- Nothing is stored and nothing is on show, for good. -/
structure Emptied (s : Schedule) (board : Board) : Prop where
  disposed : s.session.disposed = true
  store : s.session.store = {}
  board : board = []

theorem Emptied.quiet (h : Emptied s board) {a b : Stake} {t : Session} {events : List Event}
    (hquiet : s.session.Quiet a t events b) {s' : Schedule} (hs' : s'.session = t) :
    Emptied s' (events.foldl Board.after board) := by
  subst hs'
  exact ⟨hquiet.disposed.trans h.disposed, hquiet.store.trans h.store,
    by rw [Board.foldl_silent hquiet.silent, h.board]⟩

theorem Emptied.move (h : Emptied s board) (hapart : s.Apart) (m : Move) :
    Emptied (s.move m).1 ((s.move m).2.foldl Board.after board) := by
  refine move_cases (motive := fun _ r => Emptied r.1 (r.2.foldl Board.after board))
    ?start ?next ?stay ?dispose ?document m
  case start =>
    intro request
    rw [events_record]
    exact h.quiet (s.session.quiet_request request) (session_record _ _ _)
  case next =>
    intro number reply run hrun _
    have hheld := hapart.mem_inFlight hrun
    -- a run that would store something drops it instead
    have hfound : ∀ l ∈ run.lint?, l.found? s.session reply = none := by
      intro l _
      unfold Lint.found?
      split
      · rfl
      · split
        · rfl
        · exact if_pos h.disposed
    rw [events_record]
    exact h.quiet (Run.quiet_next hheld hfound) (session_record _ _ _)
  case stay => exact fun _ _ _ => h
  case dispose => exact ⟨rfl, rfl, rfl⟩
  case document => exact fun _ _ => ⟨h.disposed, h.store, h.board⟩

theorem emptied_play (hfresh : opened.inFlight = []) (moves : List Move)
    (hm : Move.dispose ∈ moves) :
    Emptied (({ session := opened } : Schedule).play moves).1
      ((({ session := opened } : Schedule).play moves).2.foldl Board.after []) := by
  revert hm
  refine play_induction (motive := fun moves s events => Move.dispose ∈ moves →
    Emptied s (events.foldl Board.after [])) (by simp) ?_ moves
  intro moves m ih hm
  rw [List.foldl_append]
  rcases List.mem_append.1 hm with hm | hm
  · exact (ih hm).move (traced_play hfresh moves).apart m
  · obtain rfl : Move.dispose = m := List.mem_singleton.1 hm
    exact ⟨rfl, rfl, rfl⟩

/-! ### Any moves -/

/-- The store and what is on show, in terms of the runs that have completed. -/
structure Mirrors (opened : Session) (history : List Completion) (s : Schedule) (board : Board) :
    Prop where
  /-- The output of a completed run is a report. -/
  parsed : ∀ c ∈ history, ∃ report,
    Report.parse opened.disk.room c.format c.output.toList = .ok report
  /-- The records of a file are those in the output of the last completed run for it. -/
  lookup : ∀ p f, opened.disk.canonical p = .ok f → s.session.store.lookup opened.disk p =
    .ok (((latest? f history).map (·.records opened.disk opened.workspace)).getD [])
  stored : ∀ f, f ∈ s.session.store.files ↔ ∃ c ∈ history, c.file = f
  onShow : ∀ f, f ∈ board.files ↔ ∃ c ∈ history, c.file = f
  /-- The records of a file are on show. -/
  shown : ∀ f ∈ board.files, ∃ records diagnostics,
    s.session.store.lookup opened.disk f = .ok records ∧
      shownAll opened.disk records f opened.workspace = .ok diagnostics ∧
      board.get? f = some diagnostics

theorem Current.mirrors (h : Current opened history s board) :
    Mirrors opened history s board := by
  have hstored : ∀ f, f ∈ s.session.store.files ↔ ∃ c ∈ history, c.file = f := by
    intro f
    rw [Store.files, FileMap.mem_files_iff, h.slices f, Option.isSome_map, isSome_latest?]
  have honShow : ∀ f, f ∈ board.files ↔ ∃ c ∈ history, c.file = f := by
    intro f
    rw [← hstored, Store.files, FileMap.mem_files_iff, FileMap.mem_files_iff,
      ← Option.isSome_map (f := Except.ok), h.shown f, Option.isSome_map]
  have hlookup : ∀ p f, opened.disk.canonical p = .ok f →
      s.session.store.lookup opened.disk p = .ok ((s.session.store.slices.get? f).getD []) := by
    intro p f hc
    simp [Store.lookup, hc]
  refine ⟨h.parsed, fun p f hc => ?_, hstored, honShow, fun f hf => ?_⟩
  · rw [hlookup p f hc, h.slices f]
  · obtain ⟨c, hmem, rfl⟩ := (honShow f).1 hf
    have hshown := h.shown c.file
    obtain ⟨diagnostics, hd⟩ := Option.isSome_iff_exists.1 ((FileMap.mem_files_iff board _).1 hf)
    rw [hd] at hshown
    obtain ⟨records, hr, hall⟩ := Option.map_eq_some_iff.1 hshown.symm
    exact ⟨records, diagnostics, by rw [hlookup _ _ (h.canonical c hmem), hr]; rfl, hall, hd⟩

/-- The store and what is on show mirror the runs that have completed, until the session is disposed
of. From then on they are empty, whatever runs still come to an end. -/
theorem mirrors_play {disk : Disk} {settings : Settings} {root : Option Path}
    {pinned : Option Format} {listed : Option (List Path)} {session : Session}
    (hdisk : disk.Grounded) (hfree : disk.tree.LoopFree)
    (h : Session.opened disk settings root pinned listed = .ok session) (moves : List Move) :
    let r := ({ session } : Schedule).play moves
    let board := r.2.foldl Board.after []
    (Move.dispose ∉ moves → (∀ e ∈ r.1.ended, ∃ a, e.2 = .ok a) →
      Mirrors session (({ session } : Schedule).completions moves) r.1 board) ∧
    (Move.dispose ∈ moves → r.1.session.store.files = [] ∧ board.files = []) := by
  obtain ⟨workspace, -, rfl⟩ := Session.opened_eq_ok h
  refine ⟨fun hm hok => ?_, fun hm => ?_⟩
  · have hnone : ∀ m ∈ moves, m ≠ .dispose := fun m hmem heq => hm (heq ▸ hmem)
    exact (current_play hdisk hfree rfl rfl moves hnone hok).mirrors
  · have hfresh : ({ disk, settings, workspace, pinned, listed } : Session).inFlight = [] := rfl
    obtain ⟨-, hstore, hboard⟩ := emptied_play hfresh moves hm
    rw [hstore, hboard]
    exact ⟨rfl, rfl⟩

end Schedule

namespace Sample

/-- A finding with the given message. -/
def spotted (message : Str) : Finding where
  range := range
  severity := 2
  code := "c"
  source := linterSource
  message := message
  related := none
  action := none

/-- What shows the finding. -/
def spottedShown (message : Str) : Diagnostic where
  range := range
  severity := .warning
  message := message
  code := "c"

/-- A report of the finding in the file of the given name. -/
def spottedText (name message : String) : String :=
  "\x7b\"diagnostics\":\x7b\"" ++ name ++ "\":[\x7b\"range\":\x7b\"start\":\x7b\"line\":0,\"" ++
    "character\":0\x7d,\"end\":\x7b\"line\":0,\"character\":0\x7d\x7d,\"code\":\"c\"," ++
    "\"message\":\"" ++ message ++ "\"\x7d]\x7d\x7d"

/-- A linter that reports one finding. -/
def spotting (name message : String) : Call → Reply := fun _ =>
  .ok ⟨[], 1, spottedText name message, ""⟩

/-- Two files are linted, and then the first one once more. -/
def relinting : List Move :=
  [.start (.lint file), .next 0 (spotting "a.nu" "x"), .start (.lint other),
    .next 1 (spotting "b.nu" "y"), .start (.lint file), .next 2 (spotting "a.nu" "z")]

theorem play_relinting :
    let r := ({ session } : Schedule).play relinting
    r.1.ended = [(0, .ok (.outcome .completed)), (1, .ok (.outcome .completed)),
      (2, .ok (.outcome .completed))] ∧
    r.1.session.store.slices =
      [(file, [.finding (spotted "z")]), (other, [.finding (spotted "y")])] ∧
    r.2.foldl Board.after [] = [(file, [spottedShown "z"]), (other, [spottedShown "y"])] := by
  decide +kernel

/-- The records of the second run for a file take the place of those of the first one, and the
records of another file stay. All are gone when the session is disposed of. -/
theorem mirrors_play_relinting :
    let r := ({ session } : Schedule).play relinting
    let board := r.2.foldl Board.after []
    (r.1.session.store.slices =
        [(file, [.finding (spotted "z")]), (other, [.finding (spotted "y")])] ∧
      board = [(file, [spottedShown "z"]), (other, [spottedShown "y"])] ∧
      Schedule.Mirrors session (({ session } : Schedule).completions relinting) r.1 board) ∧
    (({ session } : Schedule).play (relinting ++ [.dispose])).1.session.store.files = [] := by
  obtain ⟨hended, hslices, hboard⟩ := play_relinting
  have hmirrors := Schedule.mirrors_play grounded_disk loopFree_disk opened_session
  refine ⟨⟨hslices, hboard, (hmirrors relinting).1 (by simp [relinting]) ?_⟩,
    ((hmirrors _).2 (by simp)).1⟩
  simp [hended]

end Sample

end LintBridge
