import LintBridge.Document.Content
import LintBridge.Report.Finding

/-!
# LintBridge.Document.Edits

Applying a list of edits at once. The ranges of all edits are places in the text as it was before.
Edits may touch, and those at the same place are applied in the order of the list, but no two of
them may overlap: either all edits apply or none does.
-/

namespace LintBridge

/-- An edit by offsets. -/
structure Splice where
  start : Nat
  stop : Nat
  text : Str
  deriving DecidableEq, Repr

/-- An edit starts at offset `start`, before the one at its left ends at offset `stop`. -/
structure Overlap where
  start : Nat
  stop : Nat
  deriving DecidableEq, Repr

/-- The overlap in words. -/
def Overlap.message (o : Overlap) : String :=
  s!"overlapping edits at offsets {o.start} and {o.stop}"

namespace Splice

/-- The order of places: by start, then by end. -/
def comesFirst (a b : Splice) : Bool :=
  a.start < b.start || (a.start == b.start && a.stop ≤ b.stop)

/-- The first overlap of two neighbours in a list that is in order. -/
def overlap? : List Splice → Option Overlap
  | a :: b :: rest => if b.start < a.stop then some ⟨b.start, a.stop⟩ else overlap? (b :: rest)
  | _ => none

/-- The text from offset `cursor` on, with the splices made that lie after it. -/
def apply (text : Str) (cursor : Nat) : List Splice → Str
  | [] => text.drop cursor
  | s :: rest => (text.take s.start).drop cursor ++ s.text ++ apply text s.stop rest

end Splice

namespace Content

/-- An edit, its range converted into offsets. -/
def splice (content : Content) (edit : TextEdit) : Splice :=
  ⟨content.offsetAt edit.range.start, content.offsetAt edit.range.stop, edit.text⟩

/-- The text after the edits. -/
def edited (content : Content) (edits : List TextEdit) : Except Overlap Str :=
  let splices := (edits.map content.splice).mergeSort Splice.comesFirst
  match Splice.overlap? splices with
  | some overlap => .error overlap
  | none => .ok (Splice.apply content.text 0 splices)

end Content

end LintBridge
