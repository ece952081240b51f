import LintBridge.Data.Checked
import LintBridge.Text.Blank
import LintBridge.Text.Digit

/-!
# LintBridge.Data.Coerce

Numbers and truth values as people write them. A number may come as a text and a truth value as a
word or as zero or one; every accepted spelling and every refusal is listed here once.
-/

namespace LintBridge.Data

open LintBridge.Number LintBridge.Text

/-- The first integer that is too big for a machine word. -/
def wordEnd : Int := twoTo 63

/-- Some integer outside these bounds is known only as a big one. -/
def inWord (i : Int) : Bool :=
  -wordEnd ≤ i && i < wordEnd

/-- The longest row of digits, a minus before it included, that is taken for an integer. -/
def maxIntText : Nat := 4300

/-- A text without the minus that it starts with, and whether there is one. -/
def negated (text : List Char) : Bool × List Char :=
  match text with
  | '-' :: rest => (true, rest)
  | _ => (false, text)

/-- Whether a text starts with an integer that is too long. An integer starts with no zero. -/
def startsHuge (text : List Char) : Bool :=
  let (negative, unsigned) := negated text
  let row := unsigned.takeWhile Char.isDigit
  row.head?.any (· != '0') && maxIntText < row.length + negative.toNat

/-- The integer of a text that is nothing but a minus, if it is negative, and digits without
needless zeros. -/
def plainInt? (text : List Char) : Option Int :=
  let (negative, digits) := negated text
  if digits.isEmpty || !digits.all Char.isDigit || (digits.head? = some '0' && digits != ['0']) ||
      startsHuge text then none
  else
    let n : Int := digitsValue digits
    some (if negative then -n else n)

/-- `text` without its underscores, provided none stands at an end or beside another. -/
def withoutUnderscores? (text : List Char) : Option (List Char) :=
  if text.head? = some '_' || text.getLast? = some '_' ||
      (text.zip text.tail).any (fun (a, b) => a = '_' && b = '_') then none
  else some (text.filter (· != '_'))

/-- The text of an integer before a point and zeros, if it has a point. -/
def beforeZeros? (text : List Char) : Option (List Char) :=
  match text.dropWhile (· != '.') with
  | [] => some text
  | _ :: places =>
    if !places.isEmpty && places.all (· = '0') then some (text.takeWhile (· != '.')) else none

/-- A text that starts with a digit, without the zeros at its start and the underscores among them.
Its last letter is kept. -/
def withoutZeros? (text : List Char) : Option (List Char) :=
  match text with
  | '0' :: rest =>
    match rest.dropWhile fun c => c = '0' || c = '_' with
    | [] => some (text.drop rest.length)
    | significant => some significant
  | c :: _ => if c.isDigit then some text else none
  | [] => none

/-- A text without the ornaments that an integer may have: blanks around it, a plus, zeros before
its digits, single underscores between them, and a point with zeros after them. -/
def unadorned? (text : List Char) : Option (List Char) := do
  let trimmed := trim isWhiteSpace text
  let (sign, unsigned) : List Char × List Char :=
    match trimmed with
    | '-' :: rest => (['-'], rest)
    | '+' :: rest => ([], rest)
    | _ => ([], trimmed)
  let digits ← withoutUnderscores? (← withoutZeros? (← beforeZeros? unsigned))
  return sign ++ digits

/-- The integer that a text spells. -/
def intOfText (text : List Char) : Checked Int :=
  if startsHuge text then .fail .hugeInt
  else
    match (unadorned? text).bind plainInt? with
    | some i => .ok i
    | none => .fail .malformedInt

/-- A number in decimal or exponent form. -/
def decimal? (text : List Char) : Option Binary64 :=
  let (negative, unsigned) : Bool × List Char :=
    match text with
    | '-' :: rest => (true, rest)
    | '+' :: rest => (false, rest)
    | _ => (false, text)
  let word := lowerAscii unsigned
  if word = "inf".toList || word = "infinity".toList then some (.infinite negative)
  else if word = "nan".toList then some .nan
  else
    let whole := unsigned.takeWhile Char.isDigit
    let afterWhole := unsigned.dropWhile Char.isDigit
    let (places, afterPlaces) : List Char × List Char :=
      match afterWhole with
      | '.' :: rest => (rest.takeWhile Char.isDigit, rest.dropWhile Char.isDigit)
      | _ => ([], afterWhole)
    let power? : Option Int :=
      match afterPlaces with
      | [] => some 0
      | e :: rest =>
        if e = 'e' || e = 'E' then
          let (down, digits) : Bool × List Char :=
            match rest with
            | '-' :: more => (true, more)
            | '+' :: more => (false, more)
            | _ => (false, rest)
          if digits.isEmpty || !digits.all Char.isDigit then none
          else
            let n : Int := digitsValue digits
            some (if down then -n else n)
        else none
    if whole.isEmpty && places.isEmpty then none
    else
      power?.map fun power =>
        Binary64.ofDecimal negative (digitsValue (whole ++ places)) (power - places.length)

/-- The number that a text spells. -/
def floatOfText (text : List Char) : Checked Binary64 :=
  match decimal? (trim isWhiteSpace text) with
  | some x => .ok x
  | none =>
    match (withoutUnderscores? text).bind decimal? with
    | some x => .ok x
    | none => .fail .malformedFloat

/-- The words for true and false, in lower case. -/
def truthWord? (word : String) : Option Bool :=
  if ["0", "off", "f", "false", "n", "no"].contains word then some false
  else if ["1", "on", "t", "true", "y", "yes"].contains word then some true
  else none

namespace Check

/-- An integer, or what stands for one. -/
def int : Check Int
  | .int i => .ok i
  | .bool b => .ok (if b then 1 else 0)
  | .float x =>
    if !x.isFinite then .fail .notFinite
    else
      match x.toInt? with
      | none => .fail .fractionalInt
      | some i => if -wordEnd < i && i < wordEnd then .ok i else .fail .hugeInt
  | .string s => spelled (fun text => intOfText text.toList) s
  | _ => .fail .notInt

/-- An integer of at least `low`. -/
def atLeast (low : Nat) : Check Nat := fun v =>
  match int v with
  | .error issues => .error issues
  | .ok i => if (low : Int) ≤ i then .ok i.toNat else .fail .belowMinimum

/-- A number, or what stands for one. -/
def float : Check Binary64
  | .int i =>
    let x := Binary64.ofInt i
    if x.isFinite then .ok x else .fail .notFloat
  | .bool b => .ok (Binary64.ofInt (if b then 1 else 0))
  | .float x => .ok x
  | .string s => spelled (fun text => floatOfText text.toList) s
  | _ => .fail .notFloat

/-- A truth value, or what stands for one. -/
def bool : Check Bool
  | .bool b => .ok b
  | .int i =>
    if i = 0 then .ok false
    else if i = 1 then .ok true
    else .fail (if inWord i then .malformedBool else .notBool)
  | .float x =>
    match x.toInt? with
    | some 0 => .ok false
    | some 1 => .ok true
    | _ => .fail .notBool
  | .string s =>
    s |> spelled fun text =>
      match truthWord? (String.ofList (lowerAscii text.toList)) with
      | some b => .ok b
      | none => .fail .malformedBool
  | _ => .fail .notBool

/-- Exactly the word `word`. -/
def word (word : String) : Check Unit
  | .string s => if s = word then .ok () else .fail .notTheWord
  | _ => .fail .notTheWord

end Check

end LintBridge.Data
