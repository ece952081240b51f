import LintBridge.Number.Binary64

/-!
# LintBridge.Number.DecimalText

Writing doubles in decimal. `shortest` finds the fewest digits that read back as the same double
and, among numbers of that many digits, the one nearest to it; `render` lays them out with a point
or an exponent; `tenths` writes one place after the point.
-/

namespace LintBridge.Number

/-- `digits · 10 ^ exponent`. -/
structure Decimal where
  digits : Nat
  exponent : Int
  deriving DecidableEq, Repr

namespace Binary64

/-- The decimal on the grid of multiples of `10 ^ k` that reads back as the positive double
`m · 2 ^ q`, if there is one, and of two the nearer. A decimal reads back when it lies between the
midpoints to the two neighbouring doubles, a midpoint itself when `m` is even. -/
def onGrid? (m : Nat) (q k : Int) : Option Decimal :=
  let unit := twoTo (q - 2).toNat * tenTo (-k).toNat
  let grid := twoTo (2 - q).toNat * tenTo k.toNat
  let value := 4 * m * unit
  let low := (if m = twoTo 52 && -1074 < q then 4 * m - 1 else 4 * m - 2) * unit
  let high := (4 * m + 2) * unit
  let readsBack (d : Nat) : Bool :=
    if m % 2 = 0 then low ≤ d * grid && d * grid ≤ high else low < d * grid && d * grid < high
  let below := value / grid
  match readsBack below, readsBack (below + 1) with
  | true, true => some ⟨roundDiv value grid, k⟩
  | true, false => some ⟨below, k⟩
  | false, true => some ⟨below + 1, k⟩
  | false, false => none

/-- The shortest decimal that reads back as the positive double `m · 2 ^ q`: the coarsest grid
with a hit wins, and seventeen digits always suffice. -/
def shortest (m : Nat) (q : Int) : Decimal :=
  let lead := decimalExponent (m * twoTo q.toNat) (twoTo (-q).toNat)
  ((List.range 17).findSome? fun (n : Nat) => onGrid? m q (lead - n)).getD ⟨0, 0⟩

/-- The text of the shortest decimal. It is positional from `10 ^ -4` up to below `10 ^ 16`, with
at least one place after the point, and has an exponent of at least two digits elsewhere. -/
def render : Binary64 → String
  | .nan => "nan"
  | .infinite negative => if negative then "-inf" else "inf"
  | .finite negative m q =>
    let sign := if negative then ['-'] else []
    if m = 0 then String.ofList (sign ++ ['0', '.', '0'])
    else
      let decimal := shortest m q
      let all := Nat.toDigits 10 decimal.digits
      let lead : Int := all.length + decimal.exponent - 1
      let digits := (all.reverse.dropWhile (· == '0')).reverse
      let body :=
        if lead < -4 || 16 ≤ lead then
          let fraction := digits.drop 1
          let exponent := Nat.toDigits 10 lead.natAbs
          digits.take 1 ++ (if fraction.isEmpty then [] else '.' :: fraction) ++
            ['e', if lead < 0 then '-' else '+'] ++
            (if exponent.length < 2 then '0' :: exponent else exponent)
        else if lead < 0 then
          ['0', '.'] ++ List.replicate (-lead - 1).toNat '0' ++ digits
        else
          let whole := lead.toNat + 1
          let fraction := digits.drop whole
          digits.take whole ++ List.replicate (whole - digits.length) '0' ++
            '.' :: (if fraction.isEmpty then ['0'] else fraction)
      String.ofList (sign ++ body)

/-- The text with one place after the point, ties going to the even digit. -/
def tenths : Binary64 → String
  | .nan => "nan"
  | .infinite negative => if negative then "-inf" else "inf"
  | .finite negative m q =>
    let count := roundDiv (10 * m * twoTo q.toNat) (twoTo (-q).toNat)
    String.ofList ((if negative then ['-'] else []) ++ Nat.toDigits 10 (count / 10) ++
      '.' :: Nat.toDigits 10 (count % 10))

end Binary64

end LintBridge.Number
