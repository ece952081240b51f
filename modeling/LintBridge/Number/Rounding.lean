/-!
# LintBridge.Number.Rounding

Powers of two and ten, rounding a quotient of naturals to the nearest natural, a tie going to the
even neighbour, and the place of the leading decimal digit of a quotient.
-/

namespace LintBridge.Number

/-- Two to the power `k`. -/
def twoTo (k : Nat) : Nat :=
  Nat.pow 2 k

/-- Ten to the power `k`. -/
def tenTo (k : Nat) : Nat :=
  Nat.pow 10 k

/-- The natural nearest to `num / den`; of two equally near ones the even one. -/
def roundDiv (num den : Nat) : Nat :=
  let floor := num / den
  let twice := 2 * (num % den)
  if twice < den then floor
  else if den < twice then floor + 1
  else if floor % 2 = 0 then floor else floor + 1

/-- Rounding errs by at most one half. -/
theorem roundDiv_near (num : Nat) {den : Nat} (h : 0 < den) :
    2 * num ≤ (2 * roundDiv num den + 1) * den ∧ 2 * roundDiv num den * den ≤ 2 * num + den := by
  have hdiv := Nat.div_add_mod num den
  have hmod := Nat.mod_lt num h
  have hcomm : den * (num / den) = num / den * den := Nat.mul_comm _ _
  simp only [roundDiv]
  repeat' split
  all_goals
    simp only [Nat.add_mul, Nat.mul_assoc, Nat.mul_add, Nat.one_mul, Nat.mul_one]
    omega

/-- How many decimal digits `n` is written with. -/
def digitCount (n : Nat) : Nat :=
  (Nat.toDigits 10 n).length

/-- The exponent of the leading decimal digit of the positive quotient `num / den`. -/
def decimalExponent (num den : Nat) : Int :=
  if den ≤ num then (digitCount (num / den) : Int) - 1
  else - (digitCount ((den - 1) / num) : Int)

end LintBridge.Number
