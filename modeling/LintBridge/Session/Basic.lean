import LintBridge.Document.Buffer
import LintBridge.Session.Event
import LintBridge.Session.Negotiation
import LintBridge.Store

/-!
# LintBridge.Session.Basic

The state of an editing session, and the shape of its steps. Requests to a session are carried out
in steps, between which other requests may make steps of their own. A step changes the session,
causes events, and either ends the request or leaves a run that waits for something. What a run
waits for, and how it goes on, is said where the run is defined.

`inFlight` is what keeps runs for the same file apart: a file is listed there from the moment a run
for it is let in until that run ends, however it ends.
-/

namespace LintBridge

/-- A session. -/
structure Session where
  disk : Disk
  settings : Settings := {}
  workspace : Option Path := none
  /-- The report format to use whatever the linter's version. -/
  pinned : Option Format := none
  /-- The files of the workspace, if they are not to be looked for. -/
  listed : Option (List Path) := none
  store : Store := {}
  inFlight : List Path := []
  disposed : Bool := false
  negotiation : Negotiation := {}
  /-- The open documents, by name. -/
  documents : List (String × Buffer) := []

namespace Session

/-- A session for the workspace `root`. -/
def opened (disk : Disk) (settings : Settings := {}) (root : Option Path := none)
    (pinned : Option Format := none) (listed : Option (List Path) := none) :
    Except Fault Session := do
  let workspace ← root.mapM disk.canonical
  return { disk, settings, workspace, pinned, listed }

/-- Whether files are linted at all. -/
def isActive (s : Session) : Bool :=
  !s.disposed && s.settings.enable

/-- Whether a run for a file is in flight. -/
def isLinting (s : Session) (p : Path) : Except Fault Bool := do
  let file ← s.disk.canonical p
  return s.inFlight.contains file

/-- Lets a run for a file in. -/
def enter (s : Session) (file : Path) : Session :=
  { s with inFlight := file :: s.inFlight }

/-- The run for a file has ended. -/
def leave (s : Session) (file : Path) : Session :=
  { s with inFlight := s.inFlight.filter (· ≠ file) }

/-- The open document of the given name. -/
def document? (s : Session) (name : String) : Option Buffer :=
  s.documents.lookup name

/-- Opens a document, or replaces the one of that name. -/
def setDocument (s : Session) (name : String) (document : Buffer) : Session :=
  { s with documents := (name, document) :: s.documents.filter (·.1 ≠ name) }

end Session

/-- The outcome of a step: the new session, the events, and a value. -/
structure Step (α : Type) where
  session : Session
  events : List Event
  value : α

/-- The step with earlier events put before its own. -/
def Step.after {α : Type} (earlier : List Event) (step : Step α) : Step α :=
  { step with events := earlier ++ step.events }

/-- How far a request has got: it has ended, or a run is waiting. -/
inductive Progress (ρ α : Type) where
  | ended (result : Except Failure α)
  | waiting (run : ρ)

namespace Session

/-- The executable could not be started: what the user is told. -/
def startAdvice (executable : String) : String :=
  s!"nu-lint executable '{executable}' could not be started. " ++
    "Install nu-lint or set executable_path."

/-- What the user is told about a failure. -/
def notification : LintError → Str
  | .notStarted executable _ => startAdvice executable
  | e => "Nu-Lint error: " ++ e.message

/-- What is logged about a failure. -/
def logEntries (file : Path) (e : LintError) : List Str :=
  ("nu-lint failed for " ++ file.toText.toStr ++ s!" [{e.label}]: " ++ e.message) ::
    match e with
    | .rejected format _ =>
      [s!"The installed nu-lint may not match the {format.name} output format; check its version"]
    | _ => []

/-- The events by which a failure is made known. -/
def failureEvents (file : Path) (e : LintError) (notify : Bool) : List Event :=
  (logEntries file e).map .log ++ if notify then [.showError (notification e)] else []

end Session

end LintBridge
