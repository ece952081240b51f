/-!
# LintBridge.CommandLine.Arguments

The words of a command line. The first word names the task; after it, options and other words may
stand in any order, and of an option that is given twice the last one counts. The value of an option
is the next word, whatever that is, or what follows `=` in a long option and the letter in a short
one. After the word `--` there are no more options.
-/

namespace LintBridge

/-- What the options say. -/
structure Options where
  root : String := "."
  format : Option String := none
  executable : Option String := none
  emoji : Bool := true
  debug : Bool := false
  stdin : Bool := false
  help : Bool := false
  deriving DecidableEq, Repr

/-- What the program is asked to do. -/
inductive Task where
  /-- Lint files, or the whole workspace if there are none. -/
  | lint (files : List String) (options : Options)
  /-- Fix a file. -/
  | fix (file : String) (options : Options)
  /-- Fix the text on the input. -/
  | fixInput (options : Options)
  /-- Show the linter's version. -/
  | version (options : Options)
  /-- Show how the program is used. -/
  | help
  deriving DecidableEq, Repr

/-- An option: it is a switch, or it takes a value. -/
inductive OptionKind where
  | switch (set : Options → Options)
  | valued (set : String → Options → Options)

/-- An option with its names. -/
structure OptionSpec where
  name : String
  letter : Option Char := none
  kind : OptionKind

namespace OptionSpec

/-- Where the workspace is. -/
def root : OptionSpec where
  name := "--root"
  kind := .valued fun value o => { o with root := value }

/-- The report format to use. -/
def format : OptionSpec where
  name := "--format"
  letter := some 'f'
  kind := .valued fun value o => { o with format := some value }

/-- The linter's executable. -/
def executable : OptionSpec where
  name := "--executable"
  kind := .valued fun value o => { o with executable := some value }

/-- With emoji. -/
def emoji : OptionSpec where
  name := "--emoji"
  kind := .switch fun o => { o with emoji := true }

/-- Without emoji. -/
def noEmoji : OptionSpec where
  name := "--no-emoji"
  kind := .switch fun o => { o with emoji := false }

/-- With a log of everything that is done. -/
def debug : OptionSpec where
  name := "--debug"
  kind := .switch fun o => { o with debug := true }

/-- Read the text from the input. -/
def stdin : OptionSpec where
  name := "--stdin"
  kind := .switch fun o => { o with stdin := true }

/-- Show how the task is used. -/
def help : OptionSpec where
  name := "--help"
  kind := .switch fun o => { o with help := true }

end OptionSpec

/-- What is found in the words of a task. -/
structure Words where
  options : Options := {}
  others : List String := []

namespace Words

/-- The words with one more word that is no option, before the others. -/
def other (word : String) (w : Words) : Words :=
  { w with others := word :: w.others }

/-- Whether a word is an option. -/
def isOption (word : String) : Bool :=
  word.startsWith "-" && 1 < word.length

/-- The parts of a word before and after its first `=`. -/
def splitValue (word : String) : String × Option String :=
  let chars := word.toList
  match chars.dropWhile (· ≠ '=') with
  | [] => (word, none)
  | _ :: value => (String.ofList (chars.takeWhile (· ≠ '=')), some (String.ofList value))

/-- What the word of an option means: nothing, a switch, a value of its own, or a value that is the
next word. -/
inductive Meaning where
  | unknown
  | switched (set : Options → Options)
  | given (set : Options → Options)
  | awaited (set : String → Options → Options)

/-- The meaning of a long option. -/
def long? (specs : List OptionSpec) (word : String) : Option Meaning :=
  let (name, value) := splitValue word
  (specs.find? (·.name = name)).map fun spec =>
    match spec.kind, value with
    | .switch set, none => .switched set
    | .switch _, some _ => .unknown
    | .valued set, some value => .given (set value)
    | .valued set, none => .awaited set

/-- The meaning of a short option. -/
def short (specs : List OptionSpec) (word : String) : Meaning :=
  match word.toList with
  | '-' :: letter :: value =>
    match specs.find? (·.letter = some letter), value with
    | some ⟨_, _, .valued set⟩, [] => .awaited set
    | some ⟨_, _, .valued set⟩, _ => .given (set (String.ofList value))
    | _, _ => .unknown
  | _ => .unknown

/-- The meaning of an option. -/
def meaning (specs : List OptionSpec) (word : String) : Meaning :=
  match long? specs word with
  | some m => m
  | none => if word.startsWith "--" then .unknown else short specs word

/-- Reads the words of a task; `none` if an option among them is unknown or lacks its value. -/
def read (specs : List OptionSpec) (o : Options) : List String → Option Words
  | [] => some ⟨o, []⟩
  | "--" :: rest => some ⟨o, rest⟩
  | word :: rest =>
    if isOption word then
      match meaning specs word with
      | .unknown => none
      | .switched set | .given set => read specs (set o) rest
      | .awaited set =>
        match rest with
        | [] => none
        | value :: rest => read specs (set value o) rest
    else (read specs o rest).map (other word)

end Words

namespace Task

/-- The options of linting. -/
def lintOptions : List OptionSpec :=
  [.root, .format, .executable, .emoji, .noEmoji, .debug, .help]

/-- The options of fixing. -/
def fixOptions : List OptionSpec :=
  [.stdin, .root, .executable, .emoji, .noEmoji, .debug, .help]

/-- The options of showing the version. -/
def versionOptions : List OptionSpec :=
  [.executable, .debug, .help]

/-- The task that the words after `lint` describe. -/
def ofLint (w : Words) : Task :=
  .lint w.others w.options

/-- The task that the words after `fix` describe: fixing the one file given, or the input. -/
def ofFix? (w : Words) : Option Task :=
  match w.others, w.options.stdin with
  | [], true | [_], true => some (.fixInput w.options)
  | [file], false => some (.fix file w.options)
  | _, _ => none

/-- The task that the words after `version` describe. -/
def ofVersion? (w : Words) : Option Task :=
  match w.others with
  | [] => some (.version w.options)
  | _ => none

/-- The task of the words, unless they ask for help. -/
def unlessHelp (task? : Words → Option Task) (w : Words) : Option Task :=
  if w.options.help then some .help else task? w

/-- The task of the given name. -/
def named? (name : String) (rest : List String) : Option Task :=
  match name with
  | "lint" => (Words.read lintOptions {} rest).bind (unlessHelp (some ∘ ofLint))
  | "fix" => (Words.read fixOptions {} rest).bind (unlessHelp ofFix?)
  | "version" => (Words.read versionOptions {} rest).bind (unlessHelp ofVersion?)
  | _ => none

/-- The task that a command line describes, if it does describe one. -/
def ofWords? : List String → Option Task
  | [] => some .help
  | "--help" :: _ => some .help
  | "--" :: name :: rest | name :: rest => named? name rest

end Task

end LintBridge
