import LintBridge.Data.Value

/-!
# LintBridge.Data.Toml.Table

The table that a TOML document builds up, and the rules on opening parts of it again. Two marks
keep them: a *frozen* key holds a finished inline table or array and nothing below it may change; a
*declared* key is a table that a header or a dotted key has opened, and no header opens it again.
A further element of an array of tables lifts all marks below the array's key.
-/

namespace LintBridge.Data.Toml

/-- A dotted key. -/
abbrev Key := List String

/-- What is known of a key. -/
inductive Mark where
  | frozen
  | declared
  deriving DecidableEq

/-- The marked keys. -/
abbrev Marks := List (Key × Mark)

namespace Marks

/-- Some part of `key` from its start is frozen. -/
def frozen (marks : Marks) (key : Key) : Bool :=
  marks.any fun (k, mark) => mark = .frozen && k.isPrefixOf key

/-- `key` itself is declared. -/
def declared (marks : Marks) (key : Key) : Bool :=
  marks.contains (key, .declared)

/-- The marks without those at or below `key`. -/
def lift (marks : Marks) (key : Key) : Marks :=
  marks.filter fun (k, _) => !key.isPrefixOf k

end Marks

/-- Runs `act` on the table at `key`, which is created where it is missing. Through an array the
key leads into the last element, provided `intoArrays`. -/
def within (intoArrays : Bool) (act : Fields → Option Fields) : Key → Fields → Option Fields
  | [], fields => act fields
  | k :: rest, fields =>
    match fields.get? k with
    | none => (within intoArrays act rest []).map fun inner => fields.set k (.table inner)
    | some (.table inner) =>
      (within intoArrays act rest inner).map fun inner => fields.set k (.table inner)
    | some (.array items) =>
      match intoArrays, items.getLast? with
      | true, some (.table inner) =>
        (within intoArrays act rest inner).map fun inner =>
          fields.set k (.array (items.dropLast ++ [.table inner]))
      | _, _ => none
    | some _ => none

/-- Adds the field `key` with `value` to a table that lacks it. -/
def addNew (key : String) (value : Value) (fields : Fields) : Option Fields :=
  match fields.get? key with
  | none => some (fields.set key value)
  | some _ => none

/-- Adds an empty table to the array of tables at `key`. -/
def addElement (key : String) (fields : Fields) : Option Fields :=
  match fields.get? key with
  | none => some (fields.set key (.array [.table []]))
  | some (.array items) => some (fields.set key (.array (items ++ [.table []])))
  | some _ => none

/-- A document so far: its root table, the marks, and those that the next header brings into
force. -/
structure Draft where
  root : Fields := []
  marks : Marks := []
  pending : Marks := []

namespace Draft

/-- The pending marks come into force. -/
def settle (draft : Draft) : Draft :=
  { draft with marks := draft.pending ++ draft.marks, pending := [] }

/-- Opens the table `key` by a header. -/
def declare (draft : Draft) (key : Key) : Option Draft := do
  guard !(draft.marks.declared key || draft.marks.frozen key)
  let root ← within true some key draft.root
  return { draft with root, marks := (key, .declared) :: draft.marks }

/-- Opens a new element of the array of tables `key` by a header. -/
def extend (draft : Draft) (key : Key) : Option Draft := do
  guard !(draft.marks.frozen key)
  let last ← key.getLast?
  let root ← within true (addElement last) key.dropLast draft.root
  return { draft with root, marks := (key, .declared) :: draft.marks.lift key }

/-- Gives `key`, below the table `header`, its value. -/
def assign (draft : Draft) (header key : Key) (value : Value) : Option Draft := do
  let last ← key.getLast?
  let parents := key.dropLast
  let opened := (List.range parents.length).map fun n => header ++ key.take (n + 1)
  guard !(opened.any draft.marks.declared)
  guard !(draft.marks.frozen (header ++ parents))
  let root ← within true (addNew last value) (header ++ parents) draft.root
  let marks :=
    match value with
    | .table _ | .array _ => (header ++ key, .frozen) :: draft.marks
    | _ => draft.marks
  return { draft with root, marks, pending := opened.map (·, .declared) ++ draft.pending }

end Draft

end LintBridge.Data.Toml
