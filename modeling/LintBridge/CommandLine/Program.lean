import LintBridge.CommandLine.Arguments
import LintBridge.Session.Run
import LintBridge.Settings.Layers
import LintBridge.Terminal
import LintBridge.Terminal.Log

/-!
# LintBridge.CommandLine.Program

The program: a session with a terminal in the place of an editor. What it does depends on the disk,
the environment, the input and the replies of the linter; all of them are given, and `Program.run`
says what is printed and how the program ends. It ends with status 2 if the command line or the
settings are wrong or a run of the linter failed, with 1 if there are diagnostics, and with 0
otherwise. A fault ends the program at once.
-/

namespace LintBridge

/-- What the program finds in the world around it. -/
structure Surroundings where
  disk : Disk
  environment : Settings.Environment := []
  input : String := ""
  reply : Linter

/-- How a run of the program turns out: what it prints, what it does, how its log is configured, and
its status. -/
structure Ending where
  printed : String := ""
  events : List Event := []
  log : Log := {}
  status : Except Failure Nat

namespace Program

/-- The status if all is well. -/
def clean : Nat := 0

/-- The status if there are diagnostics. -/
def findings : Nat := 1

/-- The status if something failed. -/
def failure : Nat := 2

/-- The end of a program that is used wrongly. -/
def misused : Ending where
  status := .ok failure

/-- The end of a program that meets a failure which it does not handle. -/
def broken (f : Failure) : Ending where
  status := .error f

/-- The end of a program that prints some lines first. It ends there if one cannot be printed. -/
def saying (lines : List Str) (ending : Ending) : Ending :=
  let output := Terminal.print lines
  match output.fault with
  | some fault => { broken fault with printed := output.printed, events := ending.events }
  | none => { ending with printed := output.printed ++ ending.printed }

/-- The end of a program that warns of a failure. -/
def warned (o : Options) (e : LintError) : Ending :=
  saying [Notice.warn.line o.emoji e.message] { status := .ok failure }

/-- The end of a program at a terminal: what a session has done is printed, and unless a fault has
come up in either, `go` says what the program goes on to do. -/
def showing {α : Type} (t : Terminal) (step : Step (Except Failure α))
    (go : Terminal → α → Ending) : Ending :=
  let course := t.run step.events
  let ending :=
    match course.output.fault, step.value with
    | some fault, _ => broken fault
    | none, .error f => broken f
    | none, .ok a => go course.terminal a
  { ending with printed := course.output.printed ++ ending.printed, events := course.events }

/-- A session in the workspace `root`, with the settings that hold there but for the executable. -/
def openSession (disk : Disk) (env : Settings.Environment) (root : Option Path)
    (format : Option Format) (executable : Option String) : Except Failure Session := do
  let settings ← Settings.load disk root env
  let settings := { settings with executablePath := executable.getD settings.executablePath }
  orFault (Session.opened disk settings root format)

/-- What a path that is to be the workspace leads to, and whether that is a file. -/
def workspace (disk : Disk) (root : String) : Except Fault (Path × Bool) := do
  match ← disk.resolve (.ofText root) with
  | some path => return (path, disk.isFile path)
  | none => throw (.system "maximum recursion depth exceeded")

/-- Goes on with a session in the workspace that the options name, and a terminal for it. Wrong
settings are reported. -/
def inWorkspace (w : Surroundings) (o : Options) (format : Option Format)
    (go : Session → Terminal → Ending) : Ending :=
  match workspace w.disk o.root with
  | .error fault => broken fault
  | .ok (_, true) => misused
  | .ok (root, false) =>
    match openSession w.disk w.environment (some root) format o.executable with
    | .error (.lint e) => warned o e
    | .error fault => broken fault
    | .ok session => go session { root := some root, emoji := o.emoji }

/-- Whether the answer to a request says that something failed. -/
def hasFailed : Answer → Bool
  | .outcome outcome => outcome = .failed
  | .swept report => !report.failed.isEmpty
  | .fixed ok => !ok
  | _ => false

/-- The status after linting. -/
def lintStatus (answers : List Answer) (t : Terminal) : Nat :=
  if answers.any hasFailed then failure else if t.board.count ≠ 0 then findings else clean

/-- Lints the files one after another, or the whole workspace if there are none. -/
def lint (w : Surroundings) (files : List String) (o : Options) (s : Session) (t : Terminal) :
    Ending :=
  let requests : List Request :=
    if files.isEmpty then [.sweep] else files.map fun (file : String) => .lint (.ofText file)
  showing t (s.performAll w.reply requests) fun t answers =>
    let status := lintStatus answers t
    saying (if status = clean then [Notice.ok.line o.emoji "No nu-lint diagnostics."] else [])
      { status := .ok status }

/-- Fixes a file. -/
def fix (w : Surroundings) (file : String) (o : Options) (s : Session) (t : Terminal) : Ending :=
  let path := Path.ofText file
  showing t (s.perform w.reply (.fixFile path)) fun _ answer =>
    if hasFailed answer then { status := .ok failure }
    else saying [Notice.ok.line o.emoji ("Fixed " ++ path.toText.toStr)] { status := .ok clean }

/-- A text with line feeds for all line ends. -/
def normalLines : List Char → List Char
  | [] => []
  | '\r' :: '\n' :: rest => '\n' :: normalLines rest
  | '\r' :: rest => '\n' :: normalLines rest
  | c :: rest => c :: normalLines rest

/-- Fixes the text on the input and prints it as it is. -/
def fixInput (w : Surroundings) (o : Options) (s : Session) : Ending :=
  let text := String.ofList (normalLines w.input.toList)
  let step := s.perform w.reply (.fixText text)
  match step.value with
  | .ok (.text fixed) => { printed := fixed, events := step.events, status := .ok clean }
  | .ok _ => { misused with events := step.events }
  | .error (.lint e) => { warned o e with events := step.events }
  | .error f => { broken f with events := step.events }

/-- The line that shows a version. -/
def versionLine (v : Option Version) : String :=
  let text := (v.map Version.toText).getD "unknown"
  s!"nu-lint {text} (format: {(Version.formatOf v).name})\n"

/-- Shows the linter's version. No settings but the executable count. -/
def version (w : Surroundings) (o : Options) : Ending :=
  let defaults : Settings := {}
  let chosen := (o.executable.filter (· ≠ "")).getD defaults.executablePath
  let session : Session :=
    { disk := w.disk, settings := { defaults with executablePath := chosen } }
  let step := session.perform w.reply .version
  match step.value with
  | .ok (.version v) => { printed := versionLine v, events := step.events, status := .ok clean }
  | .ok _ => { misused with events := step.events }
  | .error f => { broken f with events := step.events }

/-- The format that an option asks for; `none` if there is no such format. -/
def formatOption : Option String → Option (Option Format)
  | none => some none
  | some name => (Format.ofName? name).map some

/-- How the program is used. -/
def usage : String :=
  "Usage: pynulint lint [FILE]... | fix FILE | fix --stdin | version\n" ++
    "Options: --root DIR, --format FORMAT, --executable FILE, --emoji, --no-emoji, --debug\n"

/-- Carries out a task. -/
def perform (w : Surroundings) : Task → Ending
  | .lint files o =>
    match formatOption o.format with
    | none => misused
    | some format => inWorkspace w o format (lint w files o)
  | .fix file o => inWorkspace w o none (fix w file o)
  | .fixInput o => inWorkspace w o none fun session _ => fixInput w o session
  | .version o => version w o
  | .help => { printed := usage, status := .ok clean }

/-- The log of a program that carries out a task. -/
def logOf : Task → Log
  | .lint _ o | .fix _ o | .fixInput o | .version o => ({} : Log).configure o.debug
  | .help => {}

/-- Runs the program. The log is configured before anything else is done. -/
def run (w : Surroundings) (args : List String) : Ending :=
  match Task.ofWords? args with
  | none => misused
  | some task => { perform w task with log := logOf task }

end Program

end LintBridge
