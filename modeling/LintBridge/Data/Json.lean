import LintBridge.Data.Value
import LintBridge.Text.Digit

/-!
# LintBridge.Data.Json

Reading JSON. The reader works on the rest of the text, and an error is the fault together with the
suffix at which it shows, from which its place is computed. White space is space, tab, line feed and
carriage return; `NaN`, `Infinity` and `-Infinity` are numbers; a key given twice keeps its first
place and its last value.

Two limits are not JSON's, and what exceeds one is refused as soon as it is read, even when the text
turns out malformed further on. An integer has at most `maxIntDigits` digits (`Error.oversized`).
Arrays and objects are read by readers that call each other, so they nest no deeper than there is
room for on the stack of the process (`Error.tooDeep`); how many levels that is, is given.
-/

namespace LintBridge.Data.Json

open LintBridge.Number LintBridge.Text

/-- The longest integer that is read. -/
def maxIntDigits : Nat := 4300

/-- What can be wrong with the text. -/
inductive Fault where
  | value
  | propertyName
  | colon
  | comma
  | unterminated
  | control
  | escape
  | unicodeEscape
  | extra
  | byteOrderMark
  deriving DecidableEq, Repr

/-- The fault in words. -/
def Fault.message : Fault → String
  | .value => "Expecting value"
  | .propertyName => "Expecting property name enclosed in double quotes"
  | .colon => "Expecting ':' delimiter"
  | .comma => "Expecting ',' delimiter"
  | .unterminated => "Unterminated string starting at"
  | .control => "Invalid control character at"
  | .escape => "Invalid \\escape"
  | .unicodeEscape => "Invalid \\uXXXX escape"
  | .extra => "Extra data"
  | .byteOrderMark => "Unexpected UTF-8 BOM (decode using utf-8-sig)"

/-- Why the reader stopped: a fault at the suffix `rest`, an integer that is too long, or an array
or object that is nested too deep. -/
inductive Stop where
  | fault (kind : Fault) (rest : List Char)
  | oversized
  | tooDeep

/-- A reader: a value and the text after it. -/
abbrev Reader (α : Type) := List Char → Except Stop (α × List Char)

/-- JSON's white space. -/
def isSpace (c : Char) : Bool :=
  c = ' ' || c = '\t' || c = '\n' || c = '\r'

/-- The text from its first character that is no white space. -/
def skipSpace (text : List Char) : List Char :=
  text.dropWhile isSpace

/-! ## Strings -/

/-- The letter of the given number. -/
def letter (n : Nat) : Letter Half :=
  if n.isValidChar then .char (Char.ofNat n) else .unit (Fin.ofNat 0x800 (n - 0xD800))

/-- The character that a backslash and `c` stand for. -/
def escaped? (c : Char) : Option Char :=
  match c with
  | '"' => some '"'
  | '\\' => some '\\'
  | '/' => some '/'
  | 'b' => some '\x08'
  | 'f' => some '\x0C'
  | 'n' => some '\n'
  | 'r' => some '\r'
  | 't' => some '\t'
  | _ => none

/-- The unit of the four hexadecimal digits after `\u`. Some character must follow them. -/
def unit? (text : List Char) : Option Nat :=
  if 4 < text.length then hexDigitsValue? (text.take 4) else none

/-- A high surrogate. -/
def isHigh (n : Nat) : Bool := 0xD800 ≤ n && n ≤ 0xDBFF

/-- A low surrogate. -/
def isLow (n : Nat) : Bool := 0xDC00 ≤ n && n ≤ 0xDFFF

/-- The number of the character that `high` and `low` pair up to. -/
def joinPair (high low : Nat) : Nat :=
  0x10000 + 0x400 * (high - 0xD800) + (low - 0xDC00)

/-- The units of a string after its opening quote, and the text after its closing one. `start` is
the text from the opening quote, at which an unterminated string is reported. -/
def units (start : List Char) : Nat → Reader (List Nat)
  | 0, _ => .error (.fault .unterminated start)
  | fuel + 1, text =>
    match text with
    | [] => .error (.fault .unterminated start)
    | '"' :: rest => .ok ([], rest)
    | '\\' :: 'u' :: rest =>
      match unit? rest with
      | none => .error (.fault .unicodeEscape ('u' :: rest))
      | some high =>
        let after := rest.drop 4
        match after with
        | '\\' :: 'u' :: more =>
          if isHigh high && 4 < more.length then
            match unit? more with
            | none => .error (.fault .unicodeEscape ('u' :: more))
            | some low =>
              if isLow low then do
                let (us, end_) ← units start fuel (more.drop 4)
                return (joinPair high low :: us, end_)
              else do
                let (us, end_) ← units start fuel after
                return (high :: us, end_)
          else do
            let (us, end_) ← units start fuel after
            return (high :: us, end_)
        | _ => do
          let (us, end_) ← units start fuel after
          return (high :: us, end_)
    | '\\' :: c :: rest =>
      match escaped? c with
      | none => .error (.fault .escape text)
      | some e => do
        let (us, end_) ← units start fuel rest
        return (e.toNat :: us, end_)
    | '\\' :: [] => .error (.fault .unterminated start)
    | c :: rest =>
      if c.toNat < 0x20 then .error (.fault .control text)
      else do
        let (us, end_) ← units start fuel rest
        return (c.toNat :: us, end_)

/-- A string after its opening quote. -/
def string (start : List Char) : Reader Str := fun text => do
  let (us, rest) ← units start (text.length + 1) text
  return (us.map letter, rest)

/-! ## Numbers -/

/-- The digits after a point, if a point and a digit stand there, and the rest. -/
def fraction? (text : List Char) : Option (List Char × List Char) :=
  match text with
  | '.' :: c :: rest =>
    if c.isDigit then some ((c :: rest).takeWhile Char.isDigit, (c :: rest).dropWhile Char.isDigit)
    else none
  | _ => none

/-- The exponent, if one stands there with at least one digit, and the rest. -/
def exponent? (text : List Char) : Option (Int × List Char) :=
  match text with
  | e :: rest =>
    if e = 'e' || e = 'E' then
      let (negative, digits) : Bool × List Char :=
        match rest with
        | '-' :: more => (true, more)
        | '+' :: more => (false, more)
        | _ => (false, rest)
      let value := digits.takeWhile Char.isDigit
      if value.isEmpty then none
      else
        let n : Int := digitsValue value
        some (if negative then -n else n, digits.dropWhile Char.isDigit)
    else none
  | [] => none

/-- The digits of the whole part: no further digit follows a leading zero. -/
def whole (text : List Char) : List Char × List Char :=
  match text with
  | '0' :: rest => (['0'], rest)
  | _ => (text.takeWhile Char.isDigit, text.dropWhile Char.isDigit)

/-- A number. It is an integer unless a fraction or an exponent follows the whole part. -/
def number : Reader Value := fun text =>
  let (negative, unsigned) : Bool × List Char :=
    match text with
    | '-' :: rest => (true, rest)
    | _ => (false, text)
  let (digits, afterWhole) := whole unsigned
  if digits.isEmpty then .error (.fault .value text)
  else
    let fraction := fraction? afterWhole
    let afterFraction := (fraction.map (·.2)).getD afterWhole
    let exponent := exponent? afterFraction
    match fraction, exponent with
    | none, none =>
      if maxIntDigits < digits.length then .error .oversized
      else
        let n : Int := digitsValue digits
        .ok (.int (if negative then -n else n), afterWhole)
    | _, _ =>
      let places := (fraction.map (·.1)).getD []
      let power := (exponent.map (·.1)).getD 0
      let rest := (exponent.map (·.2)).getD afterFraction
      .ok (.float (Binary64.ofDecimal negative (digitsValue (digits ++ places))
        (power - places.length)), rest)

/-! ## Values -/

/-- The fixed words and what they mean. -/
def words : List (List Char × Value) :=
  [("null".toList, .null), ("true".toList, .bool true), ("false".toList, .bool false),
    ("NaN".toList, .float .nan), ("Infinity".toList, .float (.infinite false)),
    ("-Infinity".toList, .float (.infinite true))]

/-- The fixed word that `text` starts with, and the text after it. -/
def word? (text : List Char) : Option (Value × List Char) :=
  words.findSome? fun (w, v) => if w.isPrefixOf text then some (v, text.drop w.length) else none

mutual

/-- The value at the start of the text. Arrays and objects may nest `room` levels deep. -/
def value (fuel room : Nat) (text : List Char) : Except Stop (Value × List Char) :=
  match fuel with
  | 0 => .error (.fault .value text)
  | fuel + 1 =>
    match text with
    | '"' :: rest => do
      let (s, after) ← string text rest
      return (.string s, after)
    | '{' :: rest =>
      if room = 0 then .error .tooDeep
      else
        match skipSpace rest with
        | '}' :: after => .ok (.table [], after)
        | inside => do
          let (fields, after) ← members fuel (room - 1) [] inside
          return (.table fields, after)
    | '[' :: rest =>
      if room = 0 then .error .tooDeep
      else
        match skipSpace rest with
        | ']' :: after => .ok (.array [], after)
        | inside => do
          let (items, after) ← elements fuel (room - 1) inside
          return (.array items, after)
    | _ =>
      match word? text with
      | some found => .ok found
      | none => number text

/-- The members of an object up to its closing brace; `fields` are those before. -/
def members (fuel room : Nat) (fields : Fields) (text : List Char) :
    Except Stop (Fields × List Char) :=
  match fuel with
  | 0 => .error (.fault .propertyName text)
  | fuel + 1 =>
    match text with
    | '"' :: rest => do
      let (key, afterKey) ← string text rest
      match skipSpace afterKey with
      | ':' :: afterColon => do
        let (v, afterValue) ← value fuel room (skipSpace afterColon)
        let fields := Fields.set fields key v
        match skipSpace afterValue with
        | '}' :: after => return (fields, after)
        | ',' :: more => members fuel room fields (skipSpace more)
        | other => .error (.fault .comma other)
      | other => .error (.fault .colon other)
    | _ => .error (.fault .propertyName text)

/-- The elements of an array up to its closing bracket. -/
def elements (fuel room : Nat) (text : List Char) : Except Stop (List Value × List Char) :=
  match fuel with
  | 0 => .error (.fault .value text)
  | fuel + 1 => do
    let (v, afterValue) ← value fuel room text
    match skipSpace afterValue with
    | ']' :: after => return ([v], after)
    | ',' :: more => do
      let (vs, after) ← elements fuel room (skipSpace more)
      return (v :: vs, after)
    | other => .error (.fault .comma other)

end

/-! ## Whole texts -/

/-- Why a text is not read. A fault has an offset in code points, a line counted from one and a
column counted from one since the last line feed. -/
inductive Error where
  | malformed (kind : Fault) (line column offset : Nat)
  | oversized
  | tooDeep
  deriving DecidableEq, Repr

/-- The fault `kind` of `text` at its suffix `rest`. -/
def Error.at (kind : Fault) (text rest : List Char) : Error :=
  let offset := text.length - rest.length
  let before := text.take offset
  .malformed kind (before.count '\n' + 1) ((before.reverse.takeWhile (· != '\n')).length + 1) offset

/-- The error in words. -/
def Error.message : Error → String
  | .malformed kind line column offset =>
    s!"{kind.message}: line {line} column {column} (char {offset})"
  | .oversized | .tooDeep => ""

/-- The value that `text` spells, if it nests no more than `room` levels deep. No two readers call
each other without taking a character, so the length of the text bounds how often they do. -/
def parse (room : Nat) (text : List Char) : Except Error Value :=
  let failed : Stop → Error
    | .fault kind rest => Error.at kind text rest
    | .oversized => .oversized
    | .tooDeep => .tooDeep
  match text with
  | '\uFEFF' :: _ => .error (failed (.fault .byteOrderMark text))
  | _ =>
    match value (2 * text.length + 1) room (skipSpace text) with
    | .error stop => .error (failed stop)
    | .ok (v, rest) =>
      match skipSpace rest with
      | [] => .ok v
      | extra => .error (failed (.fault .extra extra))

end LintBridge.Data.Json
