import LintBridge.Data.Value
import LintBridge.Text.Digit

/-!
# LintBridge.Data.Toml.Scalar

The scalar values of TOML: numbers, dates and times, and strings. A reader takes the longest
number or date at the start of the text and leaves the rest; whether the rest may stand there is
for the caller to say. Dates are checked against the calendar and then only known to be dates.
-/

namespace LintBridge.Data.Toml

open LintBridge.Number LintBridge.Text

/-- Why a document is not read: it is malformed, an integer is too long, or its arrays and inline
tables are nested too deep. -/
inductive Error where
  | malformed
  | oversized
  | tooDeep
  deriving DecidableEq, Repr

/-- A reader: a value and the text after it. -/
abbrev Reader (α : Type) := List Char → Except Error (α × List Char)

/-- The longest decimal integer that is read. -/
def maxIntDigits : Nat := 4300

/-- The longest run of digits of the class `p` in which single underscores may stand between
digits: the digits, and the rest. -/
def digitRun (p : Char → Bool) : List Char → List Char × List Char
  | '_' :: c :: rest =>
    if p c then
      let (digits, after) := digitRun p rest
      (c :: digits, after)
    else ([], '_' :: c :: rest)
  | c :: rest =>
    if p c then
      let (digits, after) := digitRun p rest
      (c :: digits, after)
    else ([], c :: rest)
  | [] => ([], [])

/-- A run of digits of the class `p` that starts with a digit. -/
def digits? (p : Char → Bool) (text : List Char) : Option (List Char × List Char) :=
  match text with
  | c :: _ => if p c then some (digitRun p text) else none
  | [] => none

/-- The sign at the start, `true` for minus, and the rest. -/
def sign (text : List Char) : Bool × List Char :=
  match text with
  | '-' :: rest => (true, rest)
  | '+' :: rest => (false, rest)
  | _ => (false, text)

/-- An integer after `0x`, `0o` or `0b`. -/
def prefixed? (text : List Char) : Option (Nat × List Char) :=
  match text with
  | '0' :: 'x' :: rest => do
    let (digits, after) ← digits? (fun c => (hexValue? c).isSome) rest
    return ((hexDigitsValue? digits).getD 0, after)
  | '0' :: 'o' :: rest => do
    let (digits, after) ← digits? (fun c => '0' ≤ c && c ≤ '7') rest
    return (digits.foldl (fun n c => 8 * n + (c.toNat - '0'.toNat)) 0, after)
  | '0' :: 'b' :: rest => do
    let (digits, after) ← digits? (fun c => c = '0' || c = '1') rest
    return (digits.foldl (fun n c => 2 * n + (c.toNat - '0'.toNat)) 0, after)
  | _ => none

/-- The digits of a fraction, after its point, and the rest. -/
def fraction? (text : List Char) : Option (List Char × List Char) :=
  match text with
  | '.' :: rest => digits? Char.isDigit rest
  | _ => none

/-- The exponent of a float and the rest. -/
def exponent? (text : List Char) : Option (Int × List Char) :=
  match text with
  | e :: rest =>
    if e = 'e' || e = 'E' then do
      let (negative, unsigned) := sign rest
      let (digits, after) ← digits? Char.isDigit unsigned
      let n : Int := digitsValue digits
      return (if negative then -n else n, after)
    else none
  | [] => none

/-- A number at the start of the text. -/
def number? (text : List Char) : Option (Except Error (Value × List Char)) :=
  match prefixed? text with
  | some (n, after) => some (.ok (.int n, after))
  | none =>
    let (negative, unsigned) := sign text
    let whole? : Option (List Char × List Char) :=
      match unsigned with
      | '0' :: rest => some (['0'], rest)
      | _ => digits? Char.isDigit unsigned
    whole?.map fun (whole, afterWhole) =>
      let places? := fraction? afterWhole
      let afterFraction := (places?.map (·.2)).getD afterWhole
      let power? := exponent? afterFraction
      match places?, power? with
      | none, none =>
        if maxIntDigits < whole.length then .error .oversized
        else
          let n : Int := digitsValue whole
          .ok (.int (if negative then -n else n), afterWhole)
      | _, _ =>
        let places := (places?.map (·.1)).getD []
        let x := Binary64.ofDecimal negative (digitsValue (whole ++ places))
          ((power?.map (·.1)).getD 0 - places.length)
        .ok (.float x, (power?.map (·.2)).getD afterFraction)

/-- The words for infinity and not-a-number, with an optional sign. -/
def special? (text : List Char) : Option (Value × List Char) :=
  let (negative, unsigned) := sign text
  match unsigned with
  | 'i' :: 'n' :: 'f' :: rest => some (.float (.infinite negative), rest)
  | 'n' :: 'a' :: 'n' :: rest => some (.float .nan, rest)
  | _ => none

/-! ## Dates and times -/

/-- Exactly `n` digits whose number lies between `low` and `high`. -/
def places? (n low high : Nat) (text : List Char) : Option (Nat × List Char) :=
  let digits := text.take n
  let value := digitsValue digits
  if digits.length = n && digits.all Char.isDigit && low ≤ value && value ≤ high then
    some (value, text.drop n)
  else none

/-- The text after the character `c`. -/
def after? (c : Char) (text : List Char) : Option (List Char) :=
  match text with
  | d :: rest => if d = c then some rest else none
  | [] => none

/-- A time of day: the text after it. -/
def time? (text : List Char) : Option (List Char) := do
  let (_, text) ← places? 2 0 23 text
  let text ← after? ':' text
  let (_, text) ← places? 2 0 59 text
  let text ← after? ':' text
  let (_, text) ← places? 2 0 59 text
  match text with
  | '.' :: c :: rest => if c.isDigit then (c :: rest).dropWhile Char.isDigit else text
  | _ => text

/-- The offset from universal time after a time of day, if one stands there. -/
def offset (text : List Char) : List Char :=
  match text with
  | c :: rest =>
    if c = 'Z' || c = 'z' then rest
    else if c = '+' || c = '-' then
      let after := do
        let (_, text) ← places? 2 0 23 rest
        let text ← after? ':' text
        let (_, text) ← places? 2 0 59 text
        return text
      after.getD text
    else text
  | [] => []

/-- How many days the month has. -/
def daysInMonth (year month : Nat) : Nat :=
  if month = 2 then
    if year % 4 = 0 && (year % 100 != 0 || year % 400 = 0) then 29 else 28
  else if month = 4 || month = 6 || month = 9 || month = 11 then 30
  else 31

/-- A date, with or without a time: whether the calendar has it, and the text after it. -/
def date? (text : List Char) : Option (Bool × List Char) := do
  let (year, text) ← places? 4 0 9999 text
  let text ← after? '-' text
  let (month, text) ← places? 2 1 12 text
  let text ← after? '-' text
  let (day, text) ← places? 2 1 31 text
  let valid := 1 ≤ year && day ≤ daysInMonth year month
  match text with
  | c :: rest =>
    if c = 'T' || c = 't' || c = ' ' then
      match time? rest with
      | some after => return (valid, offset after)
      | none => return (valid, text)
    else return (valid, text)
  | [] => return (valid, text)

/-! ## Strings -/

/-- A control character other than the tab; no comment and no one-line string holds one. -/
def isControl (c : Char) : Bool :=
  (c.toNat < 0x20 && c != '\t') || c.toNat = 0x7F

/-- A control character that even a string of several lines does not hold. -/
def isControlInLines (c : Char) : Bool :=
  isControl c && c != '\n'

/-- Space and tab. -/
def isSpace (c : Char) : Bool := c = ' ' || c = '\t'

/-- Space, tab and line feed. -/
def isSpaceOrLine (c : Char) : Bool := isSpace c || c = '\n'

/-- The character of the `n` hexadecimal digits after `\u` or `\U`. -/
def hexChar (n : Nat) (text : List Char) : Except Error (Char × List Char) :=
  let digits := text.take n
  if digits.length < n then .error .malformed
  else
    match hexDigitsValue? digits with
    | none => .error .malformed
    | some value =>
      if value.isValidChar then .ok (Char.ofNat value, text.drop n) else .error .malformed

/-- What an escape in a basic string stands for, after its backslash. In a string of several lines
a backslash at the end of a line also takes the line break and the white space after it. -/
def escape (lines : Bool) (text : List Char) : Except Error (List Char × List Char) :=
  match text with
  | [] => .error .malformed
  | c :: rest =>
    if lines && isSpaceOrLine c then
      match text.dropWhile isSpace with
      | [] => .ok ([], [])
      | '\n' :: after => .ok ([], after.dropWhile isSpaceOrLine)
      | _ => .error .malformed
    else
      match c with
      | 'u' => (hexChar 4 rest).map fun (c, after) => ([c], after)
      | 'U' => (hexChar 8 rest).map fun (c, after) => ([c], after)
      | 'b' => .ok (['\x08'], rest)
      | 't' => .ok (['\t'], rest)
      | 'n' => .ok (['\n'], rest)
      | 'f' => .ok (['\x0C'], rest)
      | 'r' => .ok (['\r'], rest)
      | '"' => .ok (['"'], rest)
      | '\\' => .ok (['\\'], rest)
      | _ => .error .malformed

/-- The rest of a basic string after its opening quotes. -/
def basic (lines : Bool) : Nat → Reader (List Char)
  | 0, _ => .error .malformed
  | fuel + 1, text =>
    match text with
    | [] => .error .malformed
    | '"' :: rest =>
      if !lines then .ok ([], rest)
      else
        match rest with
        | '"' :: '"' :: after => .ok ([], after)
        | _ => (basic lines fuel rest).map fun (cs, after) => ('"' :: cs, after)
    | '\\' :: rest =>
      match escape lines rest with
      | .error e => .error e
      | .ok (cs, after) => (basic lines fuel after).map fun (more, end_) => (cs ++ more, end_)
    | c :: rest =>
      if (if lines then isControlInLines c else isControl c) then .error .malformed
      else (basic lines fuel rest).map fun (cs, after) => (c :: cs, after)

/-- The rest of a literal string on one line, after its opening quote. -/
def literal (text : List Char) : Except Error (List Char × List Char) :=
  match text.dropWhile (· != '\'') with
  | _ :: after =>
    let body := text.takeWhile (· != '\'')
    if body.any isControl then .error .malformed else .ok (body, after)
  | [] => .error .malformed

/-- The rest of a literal string of several lines, after its opening quotes. -/
def literalLines : Reader (List Char)
  | [] => .error .malformed
  | '\'' :: '\'' :: '\'' :: after => .ok ([], after)
  | c :: rest =>
    if isControlInLines c then .error .malformed
    else (literalLines rest).map fun (cs, after) => (c :: cs, after)

/-- Up to two quotes right after the closing ones still belong to the string. -/
def trailing (quote : Char) (body text : List Char) : List Char × List Char :=
  match text with
  | a :: b :: rest =>
    if a = quote && b = quote then (body ++ [quote, quote], rest)
    else if a = quote then (body ++ [quote], b :: rest)
    else (body, text)
  | [a] => if a = quote then (body ++ [quote], []) else (body, text)
  | [] => (body, text)

/-- A line break right after the opening quotes does not belong to the string. -/
def afterOpening (text : List Char) : List Char :=
  match text with
  | '\n' :: rest => rest
  | _ => text

/-- A string of one line, by its opening quote. -/
def lineString? (text : List Char) : Option (Except Error (String × List Char)) :=
  match text with
  | '"' :: rest =>
    some ((basic false (rest.length + 1) rest).map fun (cs, after) => (String.ofList cs, after))
  | '\'' :: rest => some ((literal rest).map fun (cs, after) => (String.ofList cs, after))
  | _ => none

/-- A string, of one line or of several. -/
def string? (text : List Char) : Option (Except Error (String × List Char)) :=
  match text with
  | '"' :: '"' :: '"' :: rest =>
    let inside := afterOpening rest
    some ((basic true (inside.length + 1) inside).map fun (cs, after) =>
      let (cs, after) := trailing '"' cs after
      (String.ofList cs, after))
  | '\'' :: '\'' :: '\'' :: rest =>
    some ((literalLines (afterOpening rest)).map fun (cs, after) =>
      let (cs, after) := trailing '\'' cs after
      (String.ofList cs, after))
  | _ => lineString? text

end LintBridge.Data.Toml
