import LintBridge.Data.Coerce

/-!
# LintBridge.Settings.Basic

What users can set, with defaults, and the check that turns fields of a document into settings. A
field that is no setting is an error, reported after the errors in the settings themselves.
-/

namespace LintBridge

open LintBridge.Data LintBridge.Number

/-- The settings. Without a timeout the linter may run for ever. -/
structure Settings where
  enable : Bool := true
  executablePath : String := "nu-lint"
  configPath : String := ""
  lintOnSave : Bool := true
  lintOnOpen : Bool := true
  lintOnType : Bool := false
  fixOnSave : Bool := false
  debounceSeconds : Binary64 := .ofDecimal false 5 (-1)
  timeoutSeconds : Option Binary64 := some (.ofInt 30)
  excludeDirs : List String := ["node_modules", ".git"]
  deriving DecidableEq, Repr

namespace Settings

/-- What the schema of settings is called. -/
def schema : String := "LinterSettings"

/-- The names of the settings, in the order in which they are checked. -/
def fieldNames : List String :=
  ["enable", "executable_path", "config_path", "lint_on_save", "lint_on_open", "lint_on_type",
    "fix_on_save", "debounce_seconds", "timeout_seconds", "exclude_dirs"]

/-- A number of seconds, zero included. -/
def delay : Check Binary64 := fun v => do
  let x ← Check.float v
  if x.isNonnegative then return x else .fail .belowMinimum

/-- A number of seconds, zero excluded. -/
def patience : Check Binary64 := fun v => do
  let x ← Check.float v
  if x.isPositive then return x else .fail .notAbove

/-- The settings among the fields. -/
def ofFields (fields : Fields) : Checked Settings :=
  let d : Settings := {}
  ((((((((((Checked.build mk).and (fields.optional "enable" d.enable .bool)).and
    (fields.optional "executable_path" d.executablePath .proper)).and
    (fields.optional "config_path" d.configPath .proper)).and
    (fields.optional "lint_on_save" d.lintOnSave .bool)).and
    (fields.optional "lint_on_open" d.lintOnOpen .bool)).and
    (fields.optional "lint_on_type" d.lintOnType .bool)).and
    (fields.optional "fix_on_save" d.fixOnSave .bool)).and
    (fields.optional "debounce_seconds" d.debounceSeconds delay)).and
    (fields.optional "timeout_seconds" d.timeoutSeconds (.nullable patience))).and
    (fields.optional "exclude_dirs" d.excludeDirs (.list .proper))

/-- Whether a field is a setting. -/
def isKnown (field : Str × Value) : Bool :=
  fieldNames.any (Letters.ofString · = field.1)

/-- One issue for every field that is no setting. -/
def unknownFields (fields : Fields) : List Issue :=
  (fields.filter (!isKnown ·)).map fun field => ⟨[.field field.1.shown], .unknownField⟩

/-- Refuses fields that are no settings. -/
def noneUnknown (fields : Fields) : Checked Unit :=
  match unknownFields fields with
  | [] => .ok ()
  | issues => .error issues

/-- Settings in a document. -/
def check : Check Settings := .table fun fields =>
  ((Checked.build fun settings () => settings).and (ofFields fields)).and (noneUnknown fields)

/-- The settings as a document spells them. -/
def encode (s : Settings) : Value :=
  .table [("enable", .bool s.enable), ("executable_path", .string s.executablePath),
    ("config_path", .string s.configPath), ("lint_on_save", .bool s.lintOnSave),
    ("lint_on_open", .bool s.lintOnOpen), ("lint_on_type", .bool s.lintOnType),
    ("fix_on_save", .bool s.fixOnSave), ("debounce_seconds", .float s.debounceSeconds),
    ("timeout_seconds", (s.timeoutSeconds.map .float).getD .null),
    ("exclude_dirs", .array (s.excludeDirs.map fun (name : String) => .string name))]

end Settings

/-- The language identifiers of the scripts that the linter reads. -/
def languageIds : List String := ["nu", "nushell"]

/-- Whether documents of a language are for the linter. -/
def isScriptLanguage (id : String) : Bool :=
  languageIds.contains id

/-- How the names of scripts end. -/
def scriptSuffix : Spelling := ".nu"

end LintBridge
