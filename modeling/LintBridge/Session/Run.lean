import LintBridge.Record.Fixing
import LintBridge.Session.FileFix
import LintBridge.Session.Sweep

/-!
# LintBridge.Session.Run

All requests to a session, and the runs that they leave waiting. `Session.request` begins a request
and `Run.next` goes on with a run. Each run has a `rank`, a bound on how often it can go on, and
every step that does not end the run lowers it; so `Session.perform`, which carries out a request
while nothing else happens, comes to an end.
-/

namespace LintBridge

open LintBridge.Number

/-- A request to a session. -/
inductive Request where
  /-- Lint a file. With `notify` the user is told of failures. -/
  | lint (file : Path) (notify : Bool := true)
  /-- Lint the file of a document. -/
  | lintDocument (document : Buffer)
  /-- A document has been opened. -/
  | opened (document : Buffer)
  /-- A document has been saved. -/
  | saved (document : Buffer)
  /-- A document has been changed. -/
  | changed (document : Buffer)
  /-- Lint the workspace. -/
  | sweep
  /-- Fix a file on the disk. -/
  | fixFile (file : Path)
  /-- Fix a text. -/
  | fixText (text : Str)
  /-- Find edits that fix an open document. -/
  | fixDocument (name : String)
  /-- Find out the linter's version. -/
  | version
  /-- Find out the report format in use. -/
  | format
  deriving Repr

/-- The answer to a request. -/
inductive Answer where
  | outcome (o : Outcome)
  | swept (r : SweepReport)
  | fixed (ok : Bool)
  | text (s : String)
  | edits (edits : List TextEdit)
  | version (v : Option Version)
  | format (f : Format)
  deriving DecidableEq, Repr

/-- What an inquiry is to be answered with. -/
inductive Wanted where
  | version
  | format
  deriving DecidableEq, Repr

/-- The answer that is wanted, given the version. -/
def Wanted.answer : Wanted → Option Version → Answer
  | version, v => .version v
  | format, v => .format (Version.formatOf v)

/-- A run that waits. -/
inductive Run where
  | inquiry (inquiry : Inquiry) (wanted : Wanted)
  | lint (lint : Lint)
  | sweep (sweep : Sweep)
  | fix (fix : FileFix)
  /-- The file of a document that has been saved is being fixed. -/
  | savedFix (fix : FileFix) (document : Buffer)
  /-- A document that has been changed may be changed again soon. -/
  | pause (document : Buffer)
  | fixText (call : Call)
  /-- An open document, whose text is `original`, is being fixed. -/
  | fixDocument (name : String) (original : Str) (call : Call)
  deriving DecidableEq, Repr

namespace Progress

/-- The progress with its result and its run converted. -/
def map {ρ ρ' α α' : Type} (f : α → α') (g : ρ → ρ') : Progress ρ α → Progress ρ' α'
  | ended result => ended (result.map f)
  | waiting run => waiting (g run)

end Progress

/-- The step with its progress converted into that of a request. -/
def Step.lift {ρ α : Type} (answer : α → Answer) (run : ρ → Run) (step : Step (Progress ρ α)) :
    Step (Progress Run Answer) :=
  ⟨step.session, step.events, step.value.map answer run⟩

namespace Session

/-- A request that ends at once. -/
def answer (s : Session) (a : Answer) : Step (Progress Run Answer) :=
  ⟨s, [], .ended (.ok a)⟩

/-- Lints a file. -/
def lint (s : Session) (file : Path) (notify : Bool := true) : Step (Progress Run Answer) :=
  (Lint.start s file notify).lift .outcome .lint

/-- Lints the file of a document, if it has one. -/
def lintDocument (s : Session) (document : Buffer) : Step (Progress Run Answer) :=
  if document.isFile then s.lint document.path else s.answer (.outcome .skipped)

/-- Reacts to the opening of a document. -/
def opening (s : Session) (document : Buffer) : Step (Progress Run Answer) :=
  if s.settings.lintOnOpen && isScriptLanguage document.languageId then s.lintDocument document
  else s.answer (.outcome .skipped)

/-- Lints the file of a document that has been saved and fixed. -/
def lintSaved (s : Session) (document : Buffer) : Step (Progress Run Answer) :=
  if s.settings.lintOnSave then s.lintDocument document else s.answer (.outcome .skipped)

/-- Goes on with a saved document after a step of its fix. Whether the fix has worked does not
matter. -/
def savedAfter (document : Buffer) (step : Step (Progress FileFix Bool)) :
    Step (Progress Run Answer) :=
  match step.value with
  | .waiting fix => ⟨step.session, step.events, .waiting (.savedFix fix document)⟩
  | .ended (.ok _) => (step.session.lintSaved document).after step.events
  | .ended (.error failure) => ⟨step.session, step.events, .ended (.error failure)⟩

/-- Reacts to the saving of a document: its file is fixed first if the settings say so. -/
def saving (s : Session) (document : Buffer) : Step (Progress Run Answer) :=
  if !isScriptLanguage document.languageId then s.answer (.outcome .skipped)
  else if s.settings.fixOnSave && s.settings.enable && document.isFile then
    savedAfter document (FileFix.start s document.path)
  else s.lintSaved document

/-- Reacts to a change of a document: linting waits for a pause, in case more changes follow. -/
def changing (s : Session) (document : Buffer) : Step (Progress Run Answer) :=
  if s.settings.lintOnType && isScriptLanguage document.languageId then
    ⟨s, [.pause s.settings.debounceSeconds], .waiting (.pause document)⟩
  else s.answer (.outcome .skipped)

/-- The run of the linter that fixes a text. -/
def fixTextCall (s : Session) (text : Str) : Call :=
  (Command.fixText s.settings s.workspace).call s.settings (some text)

/-- Fixes a text. -/
def fixText (s : Session) (text : Str) : Step (Progress Run Answer) :=
  let call := s.fixTextCall text
  ⟨s, [.call call], .waiting (.fixText call)⟩

/-- Finds edits that fix an open document. -/
def fixDocument (s : Session) (name : String) : Step (Progress Run Answer) :=
  match s.document? name with
  | none => s.answer (.edits [])
  | some document =>
    let original := document.content.text
    let call := s.fixTextCall original
    ⟨s, [.call call], .waiting (.fixDocument name original call)⟩

/-- Finds out the version. -/
def inquire (s : Session) (wanted : Wanted) : Step (Progress Run Answer) :=
  (Inquiry.start s).lift wanted.answer (.inquiry · wanted)

/-- Finds out the report format in use. -/
def findFormat (s : Session) : Step (Progress Run Answer) :=
  match s.pinned with
  | some format => s.answer (.format format)
  | none => s.inquire .format

/-- Begins a request. -/
def request (s : Session) : Request → Step (Progress Run Answer)
  | .lint file notify => s.lint file notify
  | .lintDocument document => s.lintDocument document
  | .opened document => s.opening document
  | .saved document => s.saving document
  | .changed document => s.changing document
  | .sweep => (Sweep.start s).lift .swept .sweep
  | .fixFile file => (FileFix.start s file).lift .fixed .fix
  | .fixText text => s.fixText text
  | .fixDocument name => s.fixDocument name
  | .version => s.inquire .version
  | .format => s.findFormat

/-- The edits that make `fixed` of a document whose text was `original`: one edit from the start to
the place where the original text ends, or none if nothing is to be changed. -/
def fixingEdits (document : Option Buffer) (original : Str) (fixed : String) :
    Except Fault (List TextEdit) :=
  match document with
  | none => .ok []
  | some document =>
    if fixed = "" || fixed = original then .ok []
    else
      match document.content.rangeBetween 0 original.length with
      | .ok range => .ok [⟨range, fixed⟩]
      | .error m => .error (.misfit m)

/-- Stops linting for good and forgets all records. -/
def dispose (s : Session) : Step Unit :=
  ⟨{ s with disposed := true, store := {} }, [.clear], ()⟩

end Session

namespace Run

/-- The run of the linter that a run waits for. -/
def call? : Run → Option Call
  | .inquiry i _ => i.call?
  | .lint l => l.call?
  | .sweep w => w.lint.call?
  | .fix f | .savedFix f _ => some f.call
  | .pause _ => none
  | .fixText call | .fixDocument _ _ call => some call

/-- Whether a run waits for its turn to ask for the version. -/
def isQueueing : Run → Bool
  | .inquiry i _ => i = .queueing
  | .lint l => l.isQueueing
  | .sweep w => w.lint.isQueueing
  | _ => false

/-- Goes on with a run: the linter has replied, it is the run's turn, or the pause is over. -/
def next (s : Session) (reply : Call → Reply) : Run → Step (Progress Run Answer)
  | .inquiry i wanted => (i.next s reply).lift wanted.answer (.inquiry · wanted)
  | .lint l => (l.next s reply).lift .outcome .lint
  | .sweep w => (w.next s reply).lift .swept .sweep
  | .fix f => (f.next s reply).lift .fixed .fix
  | .savedFix f document => Session.savedAfter document (f.next s reply)
  | .pause document => s.lintDocument document
  | .fixText call => ⟨s, [], .ended ((reply call).map fun completed => .text completed.stdout)⟩
  | .fixDocument name original call =>
    let result := do
      let completed ← reply call
      orFault (Session.fixingEdits (s.document? name) original completed.stdout)
    ⟨s, [], .ended (result.map .edits)⟩

/-! ### How often a run goes on -/

/-- A bound on how often a run can go on. -/
def rank : Run → Nat
  | .inquiry i _ => i.rank
  | .lint l => l.rank
  | .sweep w => w.rank
  | .fix _ | .fixText _ | .fixDocument .. => 1
  | .savedFix .. | .pause _ => 4

/-- Every run that waits can go on. -/
theorem rank_pos (run : Run) : 0 < run.rank := by
  cases run with
  | inquiry i _ => cases i <;> simp [rank, Inquiry.rank]
  | lint l => exact l.rank_pos
  | sweep w => have := w.lint.rank_pos; simp only [rank, Sweep.rank]; omega
  | _ => simp [rank]

/-- A request that is carried out by a run of some kind waits when the run does. -/
theorem waiting_of_lift {ρ α : Type} {answer : α → Answer} {run : ρ → Run}
    {step : Step (Progress ρ α)} {r : Run} (h : (step.lift answer run).value = .waiting r) :
    ∃ x, step.value = .waiting x ∧ r = run x := by
  simp only [Step.lift] at h
  cases hv : step.value with
  | ended result => simp [hv, Progress.map] at h
  | waiting x =>
    simp only [hv, Progress.map, Progress.waiting.injEq] at h
    exact ⟨x, rfl, h.symm⟩

/-- Linting the file of a document takes no more than linting a file does. -/
theorem rank_lintDocument {s : Session} {document : Buffer} {r : Run}
    (h : (s.lintDocument document).value = .waiting r) : r.rank ≤ 3 := by
  unfold Session.lintDocument at h
  split at h
  · obtain ⟨l, _, rfl⟩ := waiting_of_lift h
    exact l.rank_le
  · simp [Session.answer] at h

/-- So does linting a saved document once its fix has ended. -/
theorem rank_savedAfter {document : Buffer} {step : Step (Progress FileFix Bool)} {r : Run}
    (hs : ∀ f, step.value ≠ .waiting f)
    (h : (Session.savedAfter document step).value = .waiting r) : r.rank ≤ 3 := by
  unfold Session.savedAfter at h
  split at h
  next f hf => exact absurd hf (hs f)
  next =>
    simp only [Step.after, Session.lintSaved] at h
    split at h
    · exact rank_lintDocument h
    · simp [Session.answer] at h
  next => simp at h

/-- A fix ends with the linter's reply. -/
theorem value_next_fix (s : Session) (reply : Call → Reply) (f g : FileFix) :
    (f.next s reply).value ≠ .waiting g := by
  unfold FileFix.next
  dsimp only
  split <;> simp

/-- Every step of a run that does not end it lowers its rank. -/
theorem rank_next {s : Session} {reply : Call → Reply} {r r' : Run}
    (h : (r.next s reply).value = .waiting r') : r'.rank < r.rank := by
  cases r with
  | inquiry i _ =>
    obtain ⟨j, hj, rfl⟩ := waiting_of_lift h
    exact Inquiry.rank_next hj
  | lint l =>
    obtain ⟨l', hl, rfl⟩ := waiting_of_lift h
    exact Lint.rank_next hl
  | sweep w =>
    obtain ⟨w', hw, rfl⟩ := waiting_of_lift h
    exact Sweep.rank_next hw
  | fix f =>
    obtain ⟨g, hg, _⟩ := waiting_of_lift h
    exact absurd hg (value_next_fix s reply f g)
  | savedFix f document =>
    exact Nat.lt_succ_of_le (rank_savedAfter (value_next_fix s reply f) h)
  | pause document =>
    exact Nat.lt_succ_of_le (rank_lintDocument h)
  | fixText call => simp [next] at h
  | fixDocument name original call => simp [next] at h

/-! ### Carrying out a request -/

/-- Goes on with a run to its end, in at most `n` steps. -/
def completeIn (linter : Linter) :
    (n : Nat) → (s : Session) → (run : Run) → run.rank ≤ n → Step (Except Failure Answer)
  | 0, _, run, h => absurd run.rank_pos (by omega)
  | n + 1, s, run, h =>
    let step := run.next s (linter.reply 0)
    match hv : step.value with
    | .ended result => ⟨step.session, step.events, result⟩
    | .waiting run' =>
      let later := linter.after run.call?.toList.length
      (completeIn later n step.session run' (by have := rank_next hv; omega)).after step.events

/-- Goes on with a run to its end. -/
def complete (s : Session) (linter : Linter) (run : Run) : Step (Except Failure Answer) :=
  completeIn linter run.rank s run (Nat.le_refl _)

end Run

namespace Session

/-- Carries out a request while nothing else happens in the session. -/
def perform (s : Session) (linter : Linter) (r : Request) :
    Step (Except Failure Answer) :=
  let step := s.request r
  match step.value with
  | .ended result => ⟨step.session, step.events, result⟩
  | .waiting run => (run.complete step.session linter).after step.events

/-- Carries out requests one after another, up to the first that ends with a failure. -/
def performAll (s : Session) (linter : Linter) :
    List Request → Step (Except Failure (List Answer))
  | [] => ⟨s, [], .ok []⟩
  | r :: rest =>
    let step := s.perform linter r
    match step.value with
    | .error failure => ⟨step.session, step.events, .error failure⟩
    | .ok answer =>
      let runs := (step.events.filterMap Event.call?).length
      let later := (performAll step.session (linter.after runs) rest).after step.events
      { later with value := later.value.map (answer :: ·) }

end Session

end LintBridge
