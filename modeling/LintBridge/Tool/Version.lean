import LintBridge.Failure
import LintBridge.Text.Blank
import LintBridge.Text.Digit

/-!
# LintBridge.Tool.Version

The linter's version, as it prints it, and the report format that goes with it. A version is the
first place in the output where the linter's name is followed by white space and three rows of
digits with points between them. Rows of digits from other scripts look like a version, but are
none.
-/

namespace LintBridge

open LintBridge.Data LintBridge.Text

/-- A version. -/
structure Version where
  major : Int
  minor : Int
  patch : Int
  deriving DecidableEq, Repr

namespace Version

/-- The version in words. -/
def toText (v : Version) : String :=
  s!"{v.major}.{v.minor}.{v.patch}"

/-- The name that comes before the version. -/
def mark : List Char := "nu-lint".toList

/-- A row of at least one digit, and the text after it. -/
def row? (text : List Char) : Option (List Char × List Char) :=
  match text.takeWhile isDecimalDigit with
  | [] => none
  | digits => some (digits, text.dropWhile isDecimalDigit)

/-- The text after a point. -/
def afterPoint? : List Char → Option (List Char)
  | '.' :: rest => some rest
  | _ => none

/-- Three rows of digits with points between them. -/
def rows? (text : List Char) : Option (List (List Char)) := do
  let (major, rest) ← row? text
  let (minor, rest) ← row? (← afterPoint? rest)
  let (patch, _) ← row? (← afterPoint? rest)
  return [major, minor, patch]

/-- The rows of digits of a version that `text` starts with. -/
def rowsHere? (text : List Char) : Option (List (List Char)) :=
  if mark.isPrefixOf text then
    let after := text.drop mark.length
    if (after.takeWhile isBlank).isEmpty then none else rows? (after.dropWhile isBlank)
  else none

/-- The rows of digits of the first version in `text`. -/
def firstRows? : List Char → Option (List (List Char))
  | [] => none
  | c :: rest =>
    match rowsHere? (c :: rest) with
    | some rows => some rows
    | none => firstRows? rest

/-- The version in the linter's output. No row of digits may be longer than integers are read. -/
def ofOutput (output : List Char) : Except Fault (Option Version) :=
  match firstRows? output with
  | some [major, minor, patch] =>
    if [major, minor, patch].any fun row => !row.all Char.isDigit then .ok none
    else if [major, minor, patch].any fun row => Json.maxIntDigits < row.length then
      .error .oversizedInteger
    else .ok (some ⟨digitsValue major, digitsValue minor, digitsValue patch⟩)
  | _ => .ok none

/-- The first patch of 0.0 that knows the ranged format. -/
def rangedSince : Int := 37

/-- The best format that a version knows; all versions know the legacy one. -/
def format (v : Version) : Format :=
  if 0 < v.major ∨ 0 < v.minor ∨ rangedSince ≤ v.patch then .ranged else .legacy

/-- The format to ask for when the version may be unknown. -/
def formatOf : Option Version → Format
  | some v => v.format
  | none => .legacy

end Version

end LintBridge
