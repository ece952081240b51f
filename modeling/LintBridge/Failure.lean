import LintBridge.Data.Json
import LintBridge.Number.DecimalText
import LintBridge.Report

/-!
# LintBridge.Failure

What can go wrong. A `LintError` is a failure of the linter or of its output: callers expect it,
report it and go on. A `Fault` is anything else; nobody expects it, and it ends the call in which it
comes up. Both are given by cause, and `message` puts a cause into words.
-/

namespace LintBridge

open LintBridge.Data LintBridge.Number

/-- Why the linter's output is no report. -/
inductive Rejection where
  /-- It is no JSON. -/
  | malformed (error : Json.Error)
  /-- It is JSON, but not a table; `kind` says what it is. -/
  | notTable (kind : String)
  /-- It is a table that does not fit the format. -/
  | misfit (m : Misfit)
  /-- A reason given in words. -/
  | stated (reason : String)
  deriving DecidableEq, Repr

/-- The reason in words. -/
def Rejection.message : Rejection → String
  | malformed error => error.message
  | notTable kind => s!"expected a JSON object, got {kind}"
  | misfit m => m.message
  | stated reason => reason

/-- Why settings are unusable. -/
inductive SettingsFlaw where
  /-- The settings file `file` cannot be read. -/
  | unreadable (file : Spelling)
  /-- The settings do not fit their schema. -/
  | misfit (m : Misfit)
  /-- A flaw given in words. -/
  | stated (flaw : String)
  deriving DecidableEq, Repr

/-- The flaw in words. -/
def SettingsFlaw.message : SettingsFlaw → Str
  | unreadable file => "Unable to read settings from " ++ file.toStr
  | misfit m => s!"Invalid pynulint settings: {m.message}"
  | stated flaw => flaw

/-- A failure of the linter. Those that the library itself cannot tell apart are given in words. -/
inductive LintError where
  /-- The executable could not be started. -/
  | notStarted (executable detail : String)
  /-- The command ended with a status that is neither zero nor one. -/
  | exitedBadly (command : List Spelling) (status : Int) (stderr : String)
  /-- The command did not end in time; `stderr` is what it had written by then. -/
  | timedOut (command : List Spelling) (seconds : Binary64) (stderr : String)
  /-- The output is no report of the format. -/
  | rejected (format : Format) (reason : Rejection)
  /-- The version could not be found out. -/
  | versionUnknown (detail : String)
  /-- The settings are unusable. -/
  | badSettings (flaw : SettingsFlaw)
  /-- Edits overlap. -/
  | overlappingEdits (detail : String)
  /-- Any other failure. -/
  | other (detail : String)
  deriving DecidableEq, Repr

namespace LintError

/-- The status that stands for a command which did not end in time. -/
def timeoutStatus : Int := 124

/-- What a command that did not end in time is taken to have written to its error stream. -/
def timeoutText (seconds : Binary64) (stderr : String) : String :=
  let notice := s!"Command timed out after {seconds.tenths}s"
  if stderr = "" then notice else s!"{stderr}\n{notice}"

/-- The failure in words. -/
def message : LintError → Str
  | notStarted executable detail => s!"Failed to start {executable}: {detail}"
  | exitedBadly _ status stderr => s!"nu-lint exited with code {status}: {stderr}"
  | timedOut _ seconds stderr =>
    s!"nu-lint exited with code {timeoutStatus}: {timeoutText seconds stderr}"
  | rejected format reason =>
    s!"Failed to parse nu-lint output as {format.name}: {reason.message}"
  | badSettings flaw => flaw.message
  | versionUnknown detail | overlappingEdits detail | other detail => detail

/-- The name of a failure in the log. -/
def label : LintError → String
  | notStarted .. => "ToolNotFound"
  | exitedBadly .. => "ToolExecutionFailed"
  | timedOut .. => "ToolTimeout"
  | rejected .. => "OutputParseFailed"
  | versionUnknown .. => "VersionDetectionFailed"
  | badSettings .. => "SettingsError"
  | overlappingEdits .. => "EditConflictError"
  | other .. => "NuLintError"

end LintError

/-- A failure that nobody expects. -/
inductive Fault where
  /-- A path starts with `~` and no home directory is known for it. -/
  | unknownHome
  /-- A path holds the character U+0000, which no file system takes. -/
  | nulInPath
  /-- A relative path has no URI. -/
  | relativeUri
  /-- A text holds half a surrogate pair, which no encoding writes. -/
  | unencodable
  /-- A document holds an integer with more digits than are read. -/
  | oversizedInteger
  /-- A document is nested deeper than it is read. -/
  | tooDeep
  /-- A settings file is not UTF-8. -/
  | undecodable
  /-- The operating system refused something. -/
  | system (detail : String)
  /-- A value was refused. -/
  | value (detail : String)
  /-- A value of the library's own making does not fit its schema. -/
  | misfit (m : Misfit)
  deriving DecidableEq, Repr

/-- The fault in words. -/
def Fault.message : Fault → String
  | unknownHome => "Could not determine home directory."
  | nulInPath => "embedded null byte"
  | relativeUri => "relative path can't be expressed as a file URI"
  | unencodable | oversizedInteger | tooDeep | undecodable => ""
  | system detail | value detail => detail
  | misfit m => m.message

/-- Either kind of failure. -/
inductive Failure where
  | lint (e : LintError)
  | fault (f : Fault)
  deriving DecidableEq, Repr

instance : Coe LintError Failure := ⟨.lint⟩
instance : Coe Fault Failure := ⟨.fault⟩

/-- The failure in words. -/
def Failure.message : Failure → Str
  | lint e => e.message
  | fault f => f.message

/-- The same outcome, with its fault taken for a failure. -/
def orFault {α : Type} : Except Fault α → Except Failure α
  | .ok a => .ok a
  | .error f => .error (.fault f)

@[simp] theorem orFault_ok {α : Type} (a : α) : orFault (.ok a) = .ok a :=
  rfl

@[simp] theorem orFault_error {α : Type} (f : Fault) :
    orFault (.error f : Except Fault α) = .error (.fault f) :=
  rfl

theorem orFault_eq_ok {α : Type} {x : Except Fault α} {a : α} : orFault x = .ok a ↔ x = .ok a := by
  cases x <;> simp

section

variable {ε α β : Type}

@[simp] theorem ok_bind (a : α) (f : α → Except ε β) : (Except.ok a >>= f) = f a :=
  rfl

@[simp] theorem error_bind (e : ε) (f : α → Except ε β) : (Except.error e >>= f) = .error e :=
  rfl

theorem bind_eq_ok {x : Except ε α} {f : α → Except ε β} {b : β} :
    x >>= f = .ok b ↔ ∃ a, x = .ok a ∧ f a = .ok b := by
  cases x <;> simp

theorem bind_eq_error {x : Except ε α} {f : α → Except ε β} {e : ε} :
    x >>= f = .error e ↔ x = .error e ∨ ∃ a, x = .ok a ∧ f a = .error e := by
  cases x <;> simp

@[simp] theorem pure_eq_ok (a : α) : (pure a : Except ε α) = .ok a :=
  rfl

end

end LintBridge
