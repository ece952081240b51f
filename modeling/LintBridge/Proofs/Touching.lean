import LintBridge.Proofs.Matching
import Mathlib.Data.Prod.Lex

/-!
# LintBridge.Proofs.Touching

When two ranges intersect. The program compares the later one of their starts with the earlier one
of their ends, as pairs of a line and a character (`Position.key`). This tells whether some position
is in both, ends included. So it does not matter which of the two comes first (`intersects_comm`),
and wider ranges intersect where narrower ones do (`intersects_mono`). Since a range holds its own
ends, ranges that touch intersect (`intersects_of_touches`), and a cursor intersects a range just if
the range holds its position (`intersects_cursor`).

Main result: `Range.intersects_shared`.
-/

namespace LintBridge

namespace Position

/-- The line and the character. Of two such pairs the one on the earlier line is less, and on one
line the one with the smaller character. -/
def key (p : Position) : Nat ×ₗ Nat :=
  toLex (p.line, p.character)

theorem key_le_key {p q : Position} : p.key ≤ q.key ↔ p ≤ q :=
  Prod.Lex.toLex_le_toLex

end Position

namespace Range

variable {a a' b b' : Range} {p q : Position}

/-- The empty range at a position. -/
def cursor (p : Position) : Range :=
  ⟨p, p, Position.le_refl p⟩

/-- One of the ranges ends where the other one starts. -/
def Touches (a b : Range) : Prop :=
  a.stop = b.start ∨ b.stop = a.start

/-- The first range starts no later and ends no earlier than the second one. -/
def Widens (a' a : Range) : Prop :=
  a'.start ≤ a.start ∧ a.stop ≤ a'.stop

theorem holds_start (r : Range) : r.Holds r.start :=
  ⟨Position.le_refl _, r.ordered⟩

theorem holds_stop (r : Range) : r.Holds r.stop :=
  ⟨r.ordered, Position.le_refl _⟩

theorem holds_cursor : (cursor p).Holds q ↔ q = p := by
  constructor
  · intro h
    exact Position.le_antisymm h.2 h.1
  · rintro rfl
    exact holds_start (cursor q)

theorem Widens.holds (h : a'.Widens a) (hp : a.Holds p) : a'.Holds p :=
  ⟨Position.le_trans h.1 hp.1, Position.le_trans hp.2 h.2⟩

theorem intersects_comm (a b : Range) : a.intersects b = b.intersects a := by
  rw [Bool.eq_iff_iff, intersects_iff, intersects_iff]
  exact exists_congr fun p => and_comm

theorem intersects_of_touches (h : a.Touches b) : a.intersects b = true := by
  rw [intersects_iff]
  rcases h with h | h
  · exact ⟨a.stop, a.holds_stop, h ▸ b.holds_start⟩
  · exact ⟨a.start, a.holds_start, h ▸ b.holds_stop⟩

theorem intersects_cursor : a.intersects (cursor p) = true ↔ a.Holds p := by
  rw [intersects_iff]
  constructor
  · rintro ⟨q, hq, hcursor⟩
    rwa [← holds_cursor.1 hcursor]
  · intro hp
    exact ⟨p, hp, holds_cursor.2 rfl⟩

theorem intersects_mono (ha : a'.Widens a) (hb : b'.Widens b) (h : a.intersects b = true) :
    a'.intersects b' = true := by
  rw [intersects_iff] at h ⊢
  obtain ⟨p, hp, hp'⟩ := h
  exact ⟨p, ha.holds hp, hb.holds hp'⟩

/-- Ranges intersect just if they share a position. They do so in either order, if one of them ends
where the other one starts, if one of them is a cursor at an end of the other one, and if they are
wider than ranges that intersect. -/
theorem intersects_shared (a b : Range) :
    (a.intersects b = true ↔ ∃ p : Position, (a.start.key ≤ p.key ∧ p.key ≤ a.stop.key) ∧
      b.start.key ≤ p.key ∧ p.key ≤ b.stop.key) ∧
    a.intersects b = b.intersects a ∧
    (a.Touches b → a.intersects b = true) ∧
    (∀ p : Position, a.intersects (cursor p) = true ↔
      a.start.key ≤ p.key ∧ p.key ≤ a.stop.key) ∧
    a.intersects (cursor a.start) = true ∧ a.intersects (cursor a.stop) = true ∧
    ∀ a' b' : Range, a'.Widens a → b'.Widens b → a.intersects b = true →
      a'.intersects b' = true := by
  simp only [Position.key_le_key]
  exact ⟨intersects_iff, intersects_comm a b, intersects_of_touches, fun p => intersects_cursor,
    intersects_cursor.2 a.holds_start, intersects_cursor.2 a.holds_stop,
    fun a' b' => intersects_mono⟩

-- characters are compared on one line only
example : intersects ⟨⟨0, 9⟩, ⟨3, 0⟩, by decide⟩ ⟨⟨1, 5⟩, ⟨1, 6⟩, by decide⟩ = true := by decide

end Range

namespace Sample

/-- From the first line to the third. -/
def upper : Range := ⟨⟨0, 7⟩, ⟨2, 3⟩, by decide⟩

/-- On the third line only. -/
def lower : Range := ⟨⟨2, 3⟩, ⟨2, 5⟩, by decide⟩

/-- All that both hold, and more. -/
def whole : Range := ⟨⟨0, 0⟩, ⟨2, 9⟩, by decide⟩

theorem intersects_shared_touching : upper.Touches lower ∧ upper.intersects lower = true ∧
    whole.Widens upper ∧ lower.Widens lower ∧ whole.intersects lower = true := by
  obtain ⟨-, -, htouches, -, -, -, hwidens⟩ := Range.intersects_shared upper lower
  have htouch : upper.Touches lower := .inl rfl
  have hwhole : whole.Widens upper := ⟨by decide, by decide⟩
  have hsame : lower.Widens lower := ⟨Position.le_refl _, Position.le_refl _⟩
  have hmeet := htouches htouch
  exact ⟨htouch, hmeet, hwhole, hsame, hwidens whole lower hwhole hsame hmeet⟩

end Sample

end LintBridge
