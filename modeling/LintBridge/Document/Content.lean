import LintBridge.Range

/-!
# LintBridge.Document.Content

The text of a document with the index of its lines. Lines end at line feeds only; a carriage return
before a line feed, or at the end of the text, belongs to the line break and not to the content of
the line. `positionAt` and `offsetAt` convert between offsets and positions. Both clamp: an offset
inside a line break counts as the end of that line's content, and so does a character past it.
-/

namespace LintBridge

/-- A text and the offsets at which its lines start. -/
structure Content where
  text : Str
  starts : List Nat
  deriving DecidableEq, Repr

/-- The offsets after the line feeds of `text`, whose first character stands at `offset`. -/
def startsAfter (offset : Nat) : Str → List Nat
  | [] => []
  | c :: rest =>
    if c = '\n' then (offset + 1) :: startsAfter (offset + 1) rest
    else startsAfter (offset + 1) rest

/-- The offsets at which the lines of `text` start. -/
def lineStarts (text : Str) : List Nat :=
  0 :: startsAfter 0 text

namespace Content

/-- A text with its index. -/
def ofText (text : Str) : Content :=
  ⟨text, lineStarts text⟩

/-- The number of lines; a line feed at the end of the text starts one more. -/
def lineCount (content : Content) : Nat :=
  content.starts.length

/-- The offset at which a line starts. -/
def lineStart (content : Content) (line : Nat) : Nat :=
  content.starts.getD line 0

/-- The offset at which a line ends, its line feed not included. -/
def lineEnd (content : Content) (line : Nat) : Nat :=
  match content.starts[line + 1]? with
  | some next => next - 1
  | none => content.text.length

/-- The offset at which the content of a line ends. -/
def contentEnd (content : Content) (line : Nat) : Nat :=
  let stop := content.lineEnd line
  if content.lineStart line < stop ∧ content.text[stop - 1]? = some (.char '\r') then stop - 1
  else stop

/-- The last line that starts at or before an offset. -/
def lineOf (content : Content) (offset : Nat) : Nat :=
  (content.starts.takeWhile (· ≤ offset)).length - 1

/-- The position of an offset; offsets outside the text count as its ends. -/
def positionAt (content : Content) (offset : Int) : Position :=
  let offset := min offset.toNat content.text.length
  let line := content.lineOf offset
  ⟨line, min offset (content.contentEnd line) - content.lineStart line⟩

/-- The offset of a position; a line past the last one counts as the end of the text. -/
def offsetAt (content : Content) (p : Position) : Nat :=
  if content.lineCount ≤ p.line then content.text.length
  else min (content.lineStart p.line + p.character) (content.contentEnd p.line)

/-- The text of a range. -/
def textOf (content : Content) (r : Range) : Str :=
  (content.text.take (content.offsetAt r.stop)).drop (content.offsetAt r.start)

end Content

end LintBridge
