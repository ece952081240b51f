import LintBridge.Data.Coerce

/-!
# LintBridge.Severity

How serious a diagnostic is, in the four levels that editors number from one. Reports name the
level by a word or by a number, and neither is checked when a report is read: what is not known
falls back on a default. Hints of a report are shown as information, as editors all but hide them.
-/

namespace LintBridge

open LintBridge.Data LintBridge.Text

/-- The levels, most serious first. -/
inductive Severity where
  | error
  | warning
  | information
  | hint
  deriving DecidableEq, Repr

namespace Severity

/-- The editor's number of a level. -/
def number : Severity → Nat
  | error => 1
  | warning => 2
  | information => 3
  | hint => 4

/-- The level that an editor's number stands for. -/
def ofNumber? (n : Int) : Option Severity :=
  if n = 1 then some error
  else if n = 2 then some warning
  else if n = 3 then some information
  else if n = 4 then some hint
  else none

@[simp] theorem ofNumber?_number (s : Severity) : ofNumber? s.number = some s := by
  cases s <;> rfl

/-- The word that names a level in printed lines. -/
def label : Severity → String
  | error => "error"
  | warning => "warning"
  | information => "info"
  | hint => "hint"

/-- The level that a report's word stands for, in any mixture of cases. -/
def ofLabel (default : Severity) (label : Str) : Severity :=
  match label.chars?.map fun chars => String.ofList (lowerAscii chars) with
  | some "error" => error
  | some "warning" => warning
  | some "info" => information
  | _ => default

/-- The level that a report's number stands for. -/
def ofCode (default : Severity) (code : Int) : Severity :=
  if code = 1 then error
  else if code = 2 then warning
  else if code = 3 || code = 4 then information
  else default

/-- A level, given by its number or by what stands for a number. -/
def check : Check Severity := fun v =>
  match Check.int v with
  | .error _ => .fail .notInEnum
  | .ok n =>
    match ofNumber? n with
    | some s => .ok s
    | none => .fail .notInEnum

end Severity

end LintBridge
