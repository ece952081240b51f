import LintBridge.Path.Canonical
import LintBridge.Settings.Basic

/-!
# LintBridge.Tool.Command

Command lines of the linter.
-/

namespace LintBridge

open LintBridge.Number

/-- A command line and the directory to run it in. `target` is the file that it is about, as seen
from there. -/
structure Command where
  executable : String
  args : List Spelling
  directory : Option Path
  target : Option Spelling
  deriving DecidableEq, Repr

namespace Command

/-- The executable and its arguments. -/
def argv (c : Command) : List Spelling :=
  c.executable :: c.args

/-- The arguments that name the linter's own configuration: `config` if given, otherwise what the
settings say. -/
def configArgs (settings : Settings) (config : Option String) : List Spelling :=
  let chosen := config.getD settings.configPath
  if chosen = "" then [] else ["--config", chosen]

/-- The option by which the linter is told to mend what it finds. -/
def fixOption : Spelling := "--fix"

/-- The command that lints a file. -/
def lint (disk : Disk) (settings : Settings) (workspace : Option Path) (file : Path)
    (format : Format) (config : Option String := none) (fix : Bool := false) :
    Except Fault Command := do
  let at_ ← disk.invocation file workspace
  return {
    executable := settings.executablePath
    args := (["-f", format.name] : List Spelling) ++ configArgs settings config ++
      (if fix then [fixOption] else []) ++ [at_.target]
    directory := some at_.directory
    target := some at_.target }

/-- The command that fixes a file in place. -/
def fix (disk : Disk) (settings : Settings) (workspace : Option Path) (file : Path) :
    Except Fault Command := do
  let at_ ← disk.invocation file workspace
  return {
    executable := settings.executablePath
    args := fixOption :: configArgs settings none ++ [at_.target]
    directory := some at_.directory
    target := some at_.target }

/-- The command that fixes a text passed to it. -/
def fixText (settings : Settings) (directory : Option Path) : Command where
  executable := settings.executablePath
  args := fixOption :: configArgs settings none
  directory := directory
  target := none

end Command

/-- One run of the linter, as it is asked for. -/
structure Call where
  executable : String
  args : List Spelling
  directory : Option Path := none
  input : Option Str := none
  timeout : Option Binary64 := none
  deriving DecidableEq, Repr

/-- The run of a command. -/
def Command.call (c : Command) (settings : Settings) (input : Option Str := none) : Call where
  executable := c.executable
  args := c.args
  directory := c.directory
  input := input
  timeout := settings.timeoutSeconds

/-- A run that ended with status zero, or with one, which means that something is to be reported. -/
structure Completed where
  command : List Spelling
  status : Int
  stdout : String
  stderr : String
  deriving DecidableEq, Repr

/-- Whether the linter found something to report. -/
def Completed.foundViolations (c : Completed) : Bool :=
  c.status = 1

/-- What comes of a run. -/
abbrev Reply := Except Failure Completed

/-- A linter: what it replies to its runs, which are counted from zero. -/
structure Linter where
  reply : Nat → Call → Reply

/-- A linter whose replies to a call are always the same. -/
instance : Coe (Call → Reply) Linter :=
  ⟨fun reply => ⟨fun _ => reply⟩⟩

/-- The linter after some runs. -/
def Linter.after (linter : Linter) (runs : Nat) : Linter where
  reply n := linter.reply (runs + n)

end LintBridge
