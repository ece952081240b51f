import LintBridge.Text.Quoted
import LintBridge.Tool.Command

/-!
# LintBridge.Tool.Run

Running the linter. What its process does is given (`Child`); `Call.run` says what is done
with it and what comes of it. A run is good when the process ends in time with status zero or one.
One that does not end in time is asked to terminate, and killed only if it ignores that.
-/

namespace LintBridge

open LintBridge.Number LintBridge.Text

/-- What a process does when a signal is sent to it. -/
inductive Reaction where
  | exits
  | ignores
  /-- There is no process any more that the signal could reach. -/
  | gone
  deriving DecidableEq, Repr

/-- Why the operating system does not start a process. -/
structure StartError where
  number : Int
  text : String
  file : Option String
  deriving DecidableEq, Repr

/-- The error in words. -/
def StartError.message (e : StartError) : String :=
  let base := s!"[Errno {e.number}] {e.text}"
  match e.file with
  | some file => s!"{base}: {quoted file}"
  | none => base

/-- A process: it cannot be started, it writes and ends, or it goes on until it gets a signal. The
status of a process that ended may be unknown. -/
inductive Child where
  | notStarted (error : StartError)
  | ends (stdout stderr : List UInt8) (status : Option Int)
  | hangs (onTerminate onKill : Reaction)
  deriving DecidableEq, Repr

/-- The signals that are sent to a process. -/
inductive Signal where
  | terminate
  | kill
  deriving DecidableEq, Repr

/-- The name of a signal. -/
def Signal.name : Signal → String
  | terminate => "terminate"
  | kill => "kill"

/-- What was done with a process and what came of it. -/
structure Trace where
  command : List Spelling
  started : Bool
  written : Option (List UInt8)
  signals : List Signal
  reply : Except LintError Completed
  deriving Repr

namespace Executable

/-- The directories that a search path names. -/
def directories (searchPath : String) : List String :=
  if searchPath = "" then [] else searchPath.splitOn ":"

/-- A file name in a directory of the search path; the empty directory is the current one. -/
def inDirectory (directory name : String) : String :=
  if directory = "" then name
  else if directory.endsWith "/" then directory ++ name
  else s!"{directory}/{name}"

/-- The first executable file called `name` in the directories of the search path. -/
def search? (disk : Disk) (searchPath name : String) : Option String :=
  if name = "" then none
  else ((directories searchPath).map (inDirectory · name)).find? fun file =>
    disk.isExecutable (.ofText file)

/-- What is started for an executable: a path is taken as it is, a name without a directory is
looked for, and kept when it is not found. -/
def resolve (disk : Disk) (searchPath executable : String) :
    Except Fault Spelling := do
  let path ← disk.expandHome (.ofText executable)
  if path.isAbsolute || 1 < path.parts.length then return path.toText
  else if executable.contains '/' then return executable
  else return ((search? disk searchPath executable).getD executable : String)

end Executable

namespace Call

/-- The status that stands for an unknown one. -/
def unknownStatus : Int := -1

/-- The statuses of good runs. -/
def goodStatuses : List Int := [0, 1]

/-- The signals sent to a process that did not end in time. -/
def signalsFor : Child → List Signal
  | .hangs .ignores _ => [.terminate, .kill]
  | _ => [.terminate]

/-- Whether a run has any time at all. -/
def hasTime (call : Call) : Bool :=
  match call.timeout with
  | some seconds => seconds.isPositive
  | none => true

/-- What comes of a process that ended by itself. -/
def ended (command : List Spelling) (stdout stderr : List UInt8) (status : Option Int) :
    Except LintError Completed :=
  let status := status.getD unknownStatus
  let stdout := String.ofList (Utf8.decodeLossy stdout)
  let stderr := String.ofList (Utf8.decodeLossy stderr)
  if goodStatuses.contains status then .ok { command, status, stdout, stderr }
  else .error (.exitedBadly command status stderr)

/-- The trace of a run that did not end in time. -/
def overran (call : Call) (command : List Spelling) (written : Option (List UInt8))
    (child : Child) : Trace where
  command := command
  started := true
  written := written
  signals := signalsFor child
  reply := .error (.timedOut command (call.timeout.getD (.ofInt 0)) "")

/-- What is to be written to the process. -/
def payload (call : Call) : Except Fault (Option (List UInt8)) :=
  match call.input with
  | none => .ok none
  | some text =>
    match text.chars? with
    | some chars => .ok (some (Utf8.encode chars))
    | none => .error .unencodable

/-- Runs the linter. No argument holds U+0000, which ends an argument for the operating system. A
process that has no time at all is stopped before anything is written to it. -/
def run (call : Call) (disk : Disk) (searchPath : String) (child : Child) : Except Fault Trace := do
  let executable ← Executable.resolve disk searchPath call.executable
  let command := executable :: call.args
  match child with
  | .notStarted error =>
    return {
      command
      started := false
      written := none
      signals := []
      reply := .error (.notStarted call.executable error.message) }
  | .ends stdout stderr status =>
    let written ← call.payload
    if call.hasTime then
      return {
        command, written
        started := true
        signals := []
        reply := ended command stdout stderr status }
    else return call.overran command none child
  | .hangs _ _ =>
    let written ← call.payload
    return call.overran command (if call.hasTime then written else none) child

end Call

end LintBridge
