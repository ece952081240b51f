import LintBridge.Number.Rounding

/-!
# LintBridge.Number.Binary64

Double-precision numbers as data. A finite one is a sign and the exact value `m · 2 ^ q`, so that
reading, comparing and writing them is arithmetic on naturals and no machine operation takes part.
`ofRatio` is the only place that rounds: to nearest, ties to even, beyond the largest finite
number to infinity.
-/

namespace LintBridge.Number

/-- A double: not a number, an infinity, or plus or minus `m · 2 ^ q`. -/
inductive Binary64 where
  | nan
  | infinite (negative : Bool)
  | finite (negative : Bool) (m : Nat) (q : Int)
  deriving DecidableEq, Repr

namespace Binary64

/-- The double nearest to `± num / den`. The significand has 53 bits, or fewer at the least
exponent -1074. -/
def ofRatio (negative : Bool) (num den : Nat) : Binary64 :=
  if num = 0 then .finite negative 0 (-1074)
  else
    let guess : Int := (num.log2 : Int) - den.log2 - 53
    let scaled (q : Int) : Nat × Nat := (num * twoTo (-q).toNat, den * twoTo q.toNat)
    let q : Int :=
      if twoTo 53 ≤ (scaled guess).1 / (scaled guess).2 then guess + 1 else guess
    let q := max q (-1074)
    let m := roundDiv (scaled q).1 (scaled q).2
    let (m, q) := if m = twoTo 53 then (twoTo 52, q + 1) else (m, q)
    if 971 < q then .infinite negative else .finite negative m q

/-- The double nearest to `± digits · 10 ^ exponent`. Exponents that are out of reach whatever the
digits are decided without forming the power. -/
def ofDecimal (negative : Bool) (digits : Nat) (exponent : Int) : Binary64 :=
  let lead : Int := digitCount digits + exponent
  if digits = 0 then .finite negative 0 (-1074)
  else if 310 < lead then .infinite negative
  else if lead < -330 then .finite negative 0 (-1074)
  else ofRatio negative (digits * tenTo exponent.toNat) (tenTo (-exponent).toNat)

/-- The double nearest to an integer. -/
def ofInt (i : Int) : Binary64 :=
  ofRatio (i < 0) i.natAbs 1

/-- Infinities and not-a-number apart. -/
def isFinite : Binary64 → Bool
  | .finite .. => true
  | _ => false

/-- `0 ≤ x`, which not-a-number fails. -/
def isNonnegative : Binary64 → Bool
  | .nan => false
  | .infinite negative => !negative
  | .finite negative m _ => !negative || m == 0

/-- `0 < x`, which not-a-number fails. -/
def isPositive : Binary64 → Bool
  | .nan => false
  | .infinite negative => !negative
  | .finite negative m _ => !negative && m != 0

/-- The integer that `x` is, if it is one. -/
def toInt? : Binary64 → Option Int
  | .finite negative m q =>
    let magnitude? : Option Nat :=
      if 0 ≤ q then some (m * twoTo q.toNat)
      else if m % twoTo (-q).toNat = 0 then some (m / twoTo (-q).toNat)
      else none
    magnitude?.map fun magnitude => if negative then -(magnitude : Int) else magnitude
  | _ => none

end Binary64

end LintBridge.Number
