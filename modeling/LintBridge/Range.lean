import LintBridge.Data.Coerce

/-!
# LintBridge.Range

Places in a text. A position counts lines and, within a line, characters, both from zero, and
positions are ordered line first. A range runs from one position to another that is not before it;
as a part of a text it does not include the character at its end, but as a target of the cursor it
includes both ends.
-/

namespace LintBridge

open LintBridge.Data

/-- A line and a character on it, both counted from zero. -/
structure Position where
  line : Nat
  character : Nat
  deriving DecidableEq, Repr

namespace Position

instance : LE Position where
  le p q := p.line < q.line ∨ (p.line = q.line ∧ p.character ≤ q.character)

theorem le_def {p q : Position} :
    p ≤ q ↔ p.line < q.line ∨ (p.line = q.line ∧ p.character ≤ q.character) := Iff.rfl

instance (p q : Position) : Decidable (p ≤ q) :=
  inferInstanceAs (Decidable (_ ∨ _))

theorem le_refl (p : Position) : p ≤ p :=
  .inr ⟨rfl, Nat.le_refl _⟩

theorem le_trans {p q r : Position} (h : p ≤ q) (h' : q ≤ r) : p ≤ r := by
  simp only [le_def] at *
  omega

theorem le_total (p q : Position) : p ≤ q ∨ q ≤ p := by
  simp only [le_def]
  omega

theorem le_antisymm {p q : Position} (h : p ≤ q) (h' : q ≤ p) : p = q := by
  cases p
  cases q
  simp only [le_def, mk.injEq] at *
  omega

/-- The later of two positions. -/
def later (p q : Position) : Position :=
  if p ≤ q then q else p

/-- The earlier of two positions. -/
def earlier (p q : Position) : Position :=
  if p ≤ q then p else q

/-- The position as a pair in words. -/
def shown (p : Position) : String :=
  s!"({p.line}, {p.character})"

/-- A position in a document. -/
def check : Check Position := .table fun fields =>
  ((Checked.build mk).and (fields.required "line" (.atLeast 0))).and
    (fields.required "character" (.atLeast 0))

/-- The position with the given line and character, which must not be negative. -/
def ofCoordinates (line character : Int) : Except Misfit Position :=
  check.run "Position" (.table [("line", .int line), ("character", .int character)])

/-- The position as a document spells it. -/
def encode (p : Position) : Value :=
  .table [("line", .int p.line), ("character", .int p.character)]

end Position

/-- A stretch of text between two positions. -/
structure Range where
  start : Position
  stop : Position
  ordered : start ≤ stop
  deriving DecidableEq, Repr

namespace Range

/-- The range between two positions, which must come in order. -/
def between (start stop : Position) : Checked Range :=
  if ordered : start ≤ stop then .ok ⟨start, stop, ordered⟩
  else .fail (.rule s!"range start {start.shown} is after end {stop.shown}")

/-- Whether the ranges share a position, ends included. -/
def intersects (a b : Range) : Bool :=
  decide (a.start.later b.start ≤ a.stop.earlier b.stop)

/-- A range in a document. -/
def check : Check Range := .table fun fields =>
  (((Checked.build between).and (fields.required "start" Position.check)).and
    (fields.required "end" Position.check)).settle

/-- The range as a document spells it. -/
def encode (r : Range) : Value :=
  .table [("start", r.start.encode), ("end", r.stop.encode)]

/-- The range between two positions, as a record of its own. -/
def ofPositions (start stop : Position) : Except Misfit Range :=
  (between start stop).mapError fun issues => ⟨"Range", issues⟩

/-- The range with the given lines and characters. The two positions are checked before their
order, and the first one that does not fit is reported alone. -/
def ofCoordinates (startLine startCharacter stopLine stopCharacter : Int) :
    Except Misfit Range := do
  let start ← Position.ofCoordinates startLine startCharacter
  let stop ← Position.ofCoordinates stopLine stopCharacter
  ofPositions start stop

end Range

end LintBridge
