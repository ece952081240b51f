import LintBridge.Data.Toml
import LintBridge.Path.Disk
import LintBridge.Settings.Basic
import LintBridge.Text.Blank

/-!
# LintBridge.Settings.Layers

Where settings come from. There are four layers, each of which overrides the ones before it setting
by setting: the defaults, the section `tool.pynulint` of `pyproject.toml`, the file `.pynulint.toml`
and the environment. Hyphens in the names of a file's fields count as underscores. The fields of all
layers are merged first and checked together afterwards, so a bad value that is overridden does no
harm.
-/

namespace LintBridge.Settings

open LintBridge.Data LintBridge.Text

/-- The file in which a project keeps the settings of all its tools. -/
def projectFile : String := "pyproject.toml"

/-- The file in which a project keeps nothing but these settings. -/
def ownFile : String := ".pynulint.toml"

/-- What the names of environment variables start with. -/
def variableStart : String := "PYNULINT_"

/-- The environment, as names and values. -/
abbrev Environment := List (String × String)

/-- The fields in a settings file; there are none if there is no such file. -/
def fileFields (disk : Disk) (file : Path) : Except Failure Fields :=
  if file.parts.any (·.contains '\x00') then .ok []
  else
    match disk.read? file with
    | none => .ok []
    | some bytes =>
      match Utf8.decode? bytes with
      | none => .error Fault.undecodable
      | some text =>
        match Toml.parse disk.room text with
        | .ok fields => .ok fields
        | .error .oversized => .error Fault.oversizedInteger
        | .error .tooDeep => .error Fault.tooDeep
        | .error .malformed => .error (LintError.badSettings (.unreadable file.toText))

/-- The fields of the table `key`; there are none if `key` is no table. -/
def subtable (fields : Fields) (key : String) : Fields :=
  ((fields.get? key).map Value.fields).getD []

/-- A field's name with its hyphens made underscores. -/
def normalKey (key : Str) : Str :=
  key.map fun (letter : Letter Half) => if letter = '-' then '_' else letter

/-- Fields with their names normalised; of two that become the same, the last one counts. -/
def normalised (fields : Fields) : Fields :=
  Fields.update [] (fields.map fun (key, v) => (normalKey key, v))

/-- The environment variable of a setting. -/
def variableName (name : String) : String :=
  variableStart ++ name.toUpper

/-- A text without the blanks at its ends. -/
def stripped (text : List Char) : List Char :=
  trim isBlank text

/-- The texts of an environment variable that switch the timeout off. -/
def noTimeout : List String := ["", "none", "0"]

/-- The names in a list that is separated by commas. -/
def listed (text : String) : List String :=
  ((text.splitOn ",").map fun part => String.ofList (stripped part.toList)).filter (· != "")

/-- What an environment variable sets the setting `name` to. -/
def variableValue (name text : String) : Value :=
  if name = "timeout_seconds" &&
      noTimeout.contains (String.ofList (lowerAscii (stripped text.toList))) then .null
  else if name = "exclude_dirs" then .array ((listed text).map fun (s : String) => .string s)
  else .string text

/-- The settings in the environment. -/
def environmentFields (env : Environment) : Fields :=
  fieldNames.filterMap fun name =>
    (env.lookup (variableName name)).map fun text => ((name : Str), variableValue name text)

/-- The fields of all layers but the defaults, for the workspace `root` if there is one. -/
def mergedFields (disk : Disk) (root : Option Path) (env : Environment) :
    Except Failure Fields := do
  match root with
  | none => return Fields.update [] (environmentFields env)
  | some root =>
    let project ← fileFields disk (root.child projectFile)
    let own ← fileFields disk (root.child ownFile)
    let projectSection := subtable (subtable project "tool") "pynulint"
    return (Fields.update (Fields.update (normalised projectSection) (normalised own))
      (environmentFields env))

/-- The settings that hold in the workspace `root`. -/
def load (disk : Disk) (root : Option Path) (env : Environment) : Except Failure Settings := do
  let fields ← mergedFields disk root env
  match check.run schema (.table fields) with
  | .ok settings => return settings
  | .error m => throw (.lint (.badSettings (.misfit m)))

end LintBridge.Settings
