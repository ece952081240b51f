import LintBridge.CommandLine.Program
import LintBridge.Tool.Run

/-!
# LintBridge.Main

The command line. It finds out what the program needs to know about the world around it, runs the
program, and prints what it says. It starts no processes itself, so every run of the linter is one
that could not be started; editors pass replies of their own.
-/

open LintBridge

namespace LintBridge.Main

/-- The workspace that a command line names. -/
def rootOf (args : List String) : String :=
  match Task.ofWords? args with
  | some (.lint _ o) | some (.fix _ o) | some (.fixInput o) => o.root
  | _ => "."

/-- Whether a command line asks for the text on the input. -/
def readsInput (args : List String) : Bool :=
  match Task.ofWords? args with
  | some (.fixInput _) => true
  | _ => false

/-- The reply of a linter that cannot be started. -/
def unavailable (call : Call) : Reply :=
  let error : StartError := ⟨2, "No such file or directory", some call.executable⟩
  .error (LintError.notStarted call.executable error.message)

/-- The disk with a file on it, if there is one of that name. -/
def withFile (disk : Disk) (name : String) : IO Disk := do
  try
    let bytes ← IO.FS.readBinFile name
    return disk.planted (.ofText name) (.file bytes.toList false)
  catch _ => return disk

/-- The settings in the environment. -/
def environment : IO Settings.Environment :=
  Settings.fieldNames.filterMapM fun field => do
    let name := Settings.variableName field
    return (← IO.getEnv name).map fun value => (name, value)

/-- What the program needs to know for a command line. -/
def surroundings (args : List String) : IO Surroundings := do
  let current := (Path.ofText (toString (← IO.currentDir))).parts
  let homes := ((← IO.getEnv "HOME").map fun (home : String) => ([], ↑home)).toList
  let bare : Disk := { tree := .directory [], current, homes }
  let root := Path.ofText (rootOf args)
  let disk ← withFile bare (root.child Settings.projectFile).toText.shown
  let disk ← withFile disk (root.child Settings.ownFile).toText.shown
  let input ← if readsInput args then (← IO.getStdin).readToEnd else pure ""
  return { disk, environment := ← environment, input, reply := unavailable }

end LintBridge.Main

/-- Runs the program. -/
def main (args : List String) : IO UInt32 := do
  let ending := Program.run (← LintBridge.Main.surroundings args) args
  IO.print ending.printed
  match ending.status with
  | .ok status => return status.toUInt32
  | .error failure =>
    IO.eprintln failure.message.shown
    return 1
