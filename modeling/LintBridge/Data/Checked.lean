import LintBridge.Data.Value

/-!
# LintBridge.Data.Checked

Checking a dynamic value against a schema. A check yields the typed value or **all** issues that it
finds, each with its place below the checked value, in the order in which the schema visits the
fields. `Checked.and` joins the checks of a record's fields: the record is valid exactly when every
field is, and otherwise the issues of all fields are listed.
-/

namespace LintBridge.Data

/-- One step down into a value. -/
inductive Descent where
  | field (name : String)
  | index (n : Nat)
  deriving DecidableEq, Repr

/-- What can be wrong with a value. A schema's own rule, checked once its fields are valid, gives
its reason in words. -/
inductive Defect where
  | missing
  | notTable
  | notString
  | brokenString
  | notArray
  | notMapping
  | notInt
  | fractionalInt
  | notFinite
  | malformedInt
  | hugeInt
  | notFloat
  | malformedFloat
  | notBool
  | malformedBool
  | belowMinimum
  | notAbove
  | notInEnum
  | notTheWord
  | unknownField
  | rule (reason : String)
  deriving DecidableEq, Repr

/-- A defect and its place. -/
structure Issue where
  place : List Descent
  defect : Defect
  deriving DecidableEq, Repr

/-- The outcome of a check. -/
abbrev Checked (α : Type) := Except (List Issue) α

namespace Checked

variable {α β : Type}

/-- A check that finds the one defect `defect` in the value itself. -/
def fail (defect : Defect) : Checked α :=
  .error [⟨[], defect⟩]

/-- Moves the issues one step down. -/
def inside (step : Descent) : Checked α → Checked α
  | .ok a => .ok a
  | .error issues => .error (issues.map fun i => { i with place := step :: i.place })

/-- A record's constructor, before any field is checked. -/
def build (f : α → β) : Checked (α → β) :=
  .ok f

/-- Applies a checked function to a checked argument, keeping the issues of both. -/
def and : Checked (α → β) → Checked α → Checked β
  | .ok f, .ok a => .ok (f a)
  | .ok _, .error issues => .error issues
  | .error issues, .ok _ => .error issues
  | .error issues, .error more => .error (issues ++ more)

/-- The outcome of a record's own rule, which is asked only when every field is valid. -/
def settle : Checked (Checked α) → Checked α
  | .ok outcome => outcome
  | .error issues => .error issues

@[simp] theorem fail_ne_ok (defect : Defect) (a : α) : fail defect ≠ .ok a := by
  simp [fail]

@[simp] theorem settle_eq_ok {c : Checked (Checked α)} {a : α} :
    c.settle = .ok a ↔ c = .ok (.ok a) := by
  cases c <;> simp [settle]

@[simp] theorem inside_eq_ok {step : Descent} {c : Checked α} {a : α} :
    inside step c = .ok a ↔ c = .ok a := by
  cases c <;> simp [inside]

theorem and_eq_ok {f : Checked (α → β)} {c : Checked α} {b : β} :
    f.and c = .ok b ↔ ∃ g a, f = .ok g ∧ c = .ok a ∧ g a = b := by
  cases f <;> cases c <;> simp [and]

theorem and_ok {f : Checked (α → β)} {c : Checked α} {g : α → β} {a : α} (hf : f = .ok g)
    (hc : c = .ok a) : f.and c = .ok (g a) :=
  and_eq_ok.2 ⟨g, a, hf, hc, rfl⟩

end Checked

/-- A check on dynamic values. -/
abbrev Check (α : Type) := Value → Checked α

namespace Check

variable {α : Type}

/-- Checks the items of an array, the first of them standing at `index`. -/
def items (check : Check α) : Nat → List Value → Checked (List α)
  | _, [] => .ok []
  | index, v :: vs =>
    ((Checked.build List.cons).and ((check v).inside (.index index))).and
      (items check (index + 1) vs)

/-- An array of checked items. -/
def list (check : Check α) : Check (List α)
  | .array vs => items check 0 vs
  | _ => .fail .notArray

/-- Either nothing or a checked value. -/
def nullable (check : Check α) : Check (Option α)
  | .null => .ok none
  | v => (check v).map some

/-- A text. -/
def text : Check Str
  | .string s => .ok s
  | _ => .fail .notString

/-- What `read` makes of a text, which has to be a proper one. -/
def spelled (read : String → Checked α) (s : Str) : Checked α :=
  match s.toString? with
  | some proper => read proper
  | none => .fail .brokenString

/-- A proper text. The sources of settings spell no others. -/
def proper : Check String
  | .string s => spelled .ok s
  | _ => .fail .notString

/-- A table whose fields pass `check`. -/
def table (check : Fields → Checked α) : Check α
  | .table fields => check fields
  | _ => .fail .notTable

/-- The entries of a mapping from texts to checked values. -/
def entries (check : Check α) : Fields → Checked (List (Str × α))
  | [] => .ok []
  | (key, v) :: rest =>
    ((Checked.build fun a all => (key, a) :: all).and
      ((check v).inside (.field key.shown))).and (entries check rest)

/-- A mapping from texts to checked values. -/
def mapping (check : Check α) : Check (List (Str × α))
  | .table fields => entries check fields
  | _ => .fail .notMapping

end Check

namespace Fields

variable {α : Type}

/-- The checked field `name`, which must be there. -/
def required (fields : Fields) (name : String) (check : Check α) : Checked α :=
  (match fields.get? name with
    | some v => check v
    | none => .fail .missing).inside (.field name)

/-- The checked field `name`, or `default` where it is absent. -/
def optional (fields : Fields) (name : String) (default : α) (check : Check α) : Checked α :=
  match fields.get? name with
  | some v => (check v).inside (.field name)
  | none => .ok default

end Fields

/-- A value that does not fit the schema called `schema`. -/
structure Misfit where
  schema : String
  issues : List Issue
  deriving DecidableEq, Repr

/-- The misfit in words: how many issues there are. -/
def Misfit.message (m : Misfit) : String :=
  let count := m.issues.length
  let noun := if count = 1 then "error" else "errors"
  s!"{count} validation {noun} for {m.schema}"

/-- `check`, with its issues put down to `schema`. -/
def Check.run {α : Type} (check : Check α) (schema : String) (v : Value) : Except Misfit α :=
  match check v with
  | .ok a => .ok a
  | .error issues => .error ⟨schema, issues⟩

end LintBridge.Data
