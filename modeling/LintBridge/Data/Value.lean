import LintBridge.Number.Binary64
import LintBridge.Text.Letter

/-!
# LintBridge.Data.Value

The values that documents and settings sources carry before anyone has checked them. Tables keep
their fields in the order in which the document first names them, as answers show that order.

A string is a `Str`: a document that escapes UTF-16 units can spell one half of a surrogate pair
alone.
-/

namespace LintBridge.Data

open LintBridge.Number

/-- A dynamic value. `moment` stands for any date or time. -/
inductive Value where
  | null
  | bool (b : Bool)
  | int (i : Int)
  | float (x : Binary64)
  | string (s : Str)
  | moment
  | array (items : List Value)
  | table (fields : List (Str × Value))
  deriving Repr

/-- Fields of a table, in order. -/
abbrev Fields := List (Str × Value)

namespace Fields

/-- The value of the field `key`. -/
def get? (fields : Fields) (key : Str) : Option Value :=
  (fields.find? (·.1 = key)).map (·.2)

/-- `fields` with `key` set to `value`: in its old place, or at the end. -/
def set (fields : Fields) (key : Str) (value : Value) : Fields :=
  match fields with
  | [] => [(key, value)]
  | (k, v) :: rest => if k = key then (key, value) :: rest else (k, v) :: set rest key value

/-- `fields` overridden by `more`, field by field. -/
def update (fields more : Fields) : Fields :=
  more.foldl (fun all (key, value) => all.set key value) fields

@[simp] theorem get?_nil (key : Str) : get? [] key = none := rfl

theorem get?_cons (k : Str) (v : Value) (rest : Fields) (key : Str) :
    get? ((k, v) :: rest) key = if k = key then some v else get? rest key := by
  by_cases h : k = key <;> simp [get?, h]

/-- A field that was set reads back, and the others are as before. -/
theorem get?_set (fields : Fields) (key : Str) (value : Value) (other : Str) :
    (fields.set key value).get? other = if key = other then some value else fields.get? other := by
  induction fields with
  | nil => simp [set, get?_cons]
  | cons field rest ih =>
      obtain ⟨k, v⟩ := field
      by_cases hk : k = key
      · by_cases ho : key = other <;> simp [set, get?_cons, hk, ho]
      · by_cases ho : key = other
        · subst ho
          simp [set, get?_cons, hk, ih]
        · simp [set, get?_cons, hk, ih, ho]

end Fields

namespace Value

/-- The fields of a table; other values have none. -/
def fields : Value → Fields
  | table fields => fields
  | _ => []

/-- The items of an array; other values have none. -/
def items : Value → List Value
  | array items => items
  | _ => []

/-- The text, if the value is one and all its letters are characters. -/
def text? : Value → Option String
  | string s => s.toString?
  | _ => none

/-- Whether the value is null. -/
def isNull : Value → Bool
  | null => true
  | _ => false

/-- The value of the field `key`, if `v` is a table that has it. -/
def get? (v : Value) (key : Str) : Option Value :=
  v.fields.get? key

end Value

end LintBridge.Data
