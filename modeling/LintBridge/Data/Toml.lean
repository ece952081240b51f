import LintBridge.Data.Toml.Scalar
import LintBridge.Data.Toml.Table

/-!
# LintBridge.Data.Toml

Reading TOML 1.0 documents. A document is a row of statements, each on a line of its own: a header
`[table]` or `[[array of tables]]`, or a key with its value. Comments and blank lines may stand
between them, and a carriage return before a line feed counts as part of the line break. Arrays and
inline tables may be nested as deep as there is room for on the stack of the process
(`Error.tooDeep`).
-/

namespace LintBridge.Data.Toml

/-- A character of an unquoted key. -/
def isBareKeyChar (c : Char) : Bool :=
  c.isAlphanum || c = '-' || c = '_'

/-- One part of a dotted key. -/
def keyPart (text : List Char) : Except Error (String × List Char) :=
  match text.takeWhile isBareKeyChar with
  | [] => (lineString? text).getD (.error .malformed)
  | part => .ok (String.ofList part, text.dropWhile isBareKeyChar)

/-- A dotted key and the white space after it. -/
def dottedKey : Nat → Reader Key
  | 0, _ => .error .malformed
  | fuel + 1, text => do
    let (part, rest) ← keyPart text
    match rest.dropWhile isSpace with
    | '.' :: more => do
      let (parts, after) ← dottedKey fuel (more.dropWhile isSpace)
      return (part :: parts, after)
    | after => return ([part], after)

/-- The text after a comment, which reaches to the end of the line. -/
def skipComment (text : List Char) : Except Error (List Char) :=
  match text with
  | '#' :: rest =>
    if (rest.takeWhile (· != '\n')).any isControl then .error .malformed
    else .ok (rest.dropWhile (· != '\n'))
  | _ => .ok text

/-- The text after white space, line breaks and comments. -/
def skipLines : Nat → List Char → Except Error (List Char)
  | 0, text => .ok text
  | fuel + 1, text => do
    let text := text.dropWhile isSpaceOrLine
    match text with
    | '#' :: _ => do
      let after ← skipComment text
      skipLines fuel after
    | _ => return text

/-- The fields of an inline table with one more; `frozen` are the keys of its finished tables and
arrays. -/
def addInline (fields : Fields) (frozen : Marks) (key : Key) (value : Value) : Option Fields := do
  guard !(frozen.frozen key)
  let last ← key.getLast?
  within false (addNew last value) key.dropLast fields

/-- How many calls the readers of what is in an array take. -/
def callsInArray : Nat := 2

/-- How many calls the readers of what is in an inline table take. -/
def callsInTable : Nat := 3

mutual

/-- A value. There is room for `room` calls. -/
def value (fuel room : Nat) (text : List Char) : Except Error (Value × List Char) :=
  match fuel with
  | 0 => .error .malformed
  | fuel + 1 =>
    match string? text with
    | some read => read.map fun (s, after) => (.string s, after)
    | none =>
      match text with
      | 't' :: 'r' :: 'u' :: 'e' :: after => .ok (.bool true, after)
      | 'f' :: 'a' :: 'l' :: 's' :: 'e' :: after => .ok (.bool false, after)
      | '[' :: rest =>
        if room < callsInArray then .error .tooDeep
        else do
          match ← skipLines rest.length rest with
          | ']' :: after => return (.array [], after)
          | inside => do
            let (items, after) ← elements fuel (room - callsInArray) inside
            return (.array items, after)
      | '\x7b' :: rest =>
        if room < callsInTable then .error .tooDeep
        else
          match rest.dropWhile isSpace with
          | '\x7d' :: after => .ok (.table [], after)
          | inside => do
            let (fields, after) ← entries fuel (room - callsInTable) [] [] inside
            return (.table fields, after)
      | _ =>
        match date? text with
        | some (valid, after) => if valid then .ok (.moment, after) else .error .malformed
        | none =>
          match time? text with
          | some after => .ok (.moment, after)
          | none =>
            match number? text with
            | some read => read
            | none =>
              match special? text with
              | some found => .ok found
              | none => .error .malformed

/-- The elements of an array up to its closing bracket. -/
def elements (fuel room : Nat) (text : List Char) : Except Error (List Value × List Char) :=
  match fuel with
  | 0 => .error .malformed
  | fuel + 1 => do
    let (v, rest) ← value fuel room text
    match ← skipLines rest.length rest with
    | ']' :: after => return ([v], after)
    | ',' :: more => do
      match ← skipLines more.length more with
      | ']' :: after => return ([v], after)
      | next => do
        let (vs, after) ← elements fuel room next
        return (v :: vs, after)
    | _ => .error .malformed

/-- The entries of an inline table up to its closing brace; `fields` are those before. -/
def entries (fuel room : Nat) (fields : Fields) (frozen : Marks) (text : List Char) :
    Except Error (Fields × List Char) :=
  match fuel with
  | 0 => .error .malformed
  | fuel + 1 => do
    let (key, v, rest) ← pair fuel room text
    match addInline fields frozen key v with
    | none => .error .malformed
    | some fields =>
      let frozen :=
        match v with
        | .table _ | .array _ => (key, Mark.frozen) :: frozen
        | _ => frozen
      match rest.dropWhile isSpace with
      | '\x7d' :: after => return (fields, after)
      | ',' :: more => entries fuel room fields frozen (more.dropWhile isSpace)
      | _ => .error .malformed

/-- A key, an equals sign and a value. -/
def pair (fuel room : Nat) (text : List Char) : Except Error (Key × Value × List Char) :=
  match fuel with
  | 0 => .error .malformed
  | fuel + 1 => do
    let (key, rest) ← dottedKey (text.length + 1) text
    match rest with
    | '=' :: more => do
      let (v, after) ← value fuel room (more.dropWhile isSpace)
      return (key, v, after)
    | _ => .error .malformed

end

/-- A header after its opening brackets: its key, and the text after `closing`. -/
def header (closing : List Char) (text : List Char) : Except Error (Key × List Char) := do
  let (key, rest) ← dottedKey (text.length + 1) (text.dropWhile isSpace)
  if closing.isPrefixOf rest then return (key, rest.drop closing.length) else .error .malformed

/-- The part of a malformed step: `none` means that the document breaks a rule. -/
def require (draft : Option Draft) : Except Error Draft :=
  match draft with
  | some draft => .ok draft
  | none => .error .malformed

/-- One statement: the draft after it, the header that now holds, and the rest of its line. -/
def statement (room : Nat) (draft : Draft) (table : Key) (text : List Char) :
    Except Error (Draft × Key × List Char) :=
  match text with
  | '[' :: '[' :: rest => do
    let (key, after) ← header [']', ']'] rest
    return (← require (draft.settle.extend key), key, after)
  | '[' :: rest => do
    let (key, after) ← header [']'] rest
    return (← require (draft.settle.declare key), key, after)
  | c :: _ =>
    if isBareKeyChar c || c = '"' || c = '\'' then do
      let (key, v, after) ← pair (2 * text.length + 2) room text
      return (← require (draft.assign table key v), table, after)
    else if c = '#' then return (draft, table, text)
    else .error .malformed
  | [] => return (draft, table, [])

/-- The statements of a document, one line after another. -/
def statements (room : Nat) : Nat → Draft → Key → List Char → Except Error Fields
  | 0, _, _, _ => .error .malformed
  | fuel + 1, draft, table, text =>
    match text.dropWhile isSpace with
    | [] => .ok draft.root
    | '\n' :: rest => statements room fuel draft table rest
    | line => do
      let (draft, table, rest) ← statement room draft table line
      match ← skipComment (rest.dropWhile isSpace) with
      | [] => return draft.root
      | '\n' :: more => statements room fuel draft table more
      | _ => .error .malformed

/-- The text with every carriage return and line feed made one line feed. -/
def joinBreaks : List Char → List Char
  | '\r' :: '\n' :: rest => '\n' :: joinBreaks rest
  | c :: rest => c :: joinBreaks rest
  | [] => []

/-- The root table of the document `text`, with room for `room` calls of the readers of values. -/
def parse (room : Nat) (text : List Char) : Except Error Fields :=
  let text := joinBreaks text
  statements room (text.length + 1) {} [] text

end LintBridge.Data.Toml
