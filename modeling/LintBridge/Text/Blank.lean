/-!
# LintBridge.Text.Blank

White space, in the two readings that this library meets. `isWhiteSpace` is the Unicode property
`White_Space`; `isBlank` also counts the four information separators U+001C to U+001F, as text
that people read line by line does. Text is blank when it holds nothing else, and `trim` cuts a
class of characters off both ends.
-/

namespace LintBridge.Text

/-- The Unicode property `White_Space`. -/
def isWhiteSpace (c : Char) : Bool :=
  let n := c.toNat
  (0x09 ≤ n && n ≤ 0x0D) || n == 0x20 || n == 0x85 || n == 0xA0 || n == 0x1680 ||
    (0x2000 ≤ n && n ≤ 0x200A) || n == 0x2028 || n == 0x2029 || n == 0x202F || n == 0x205F ||
    n == 0x3000

/-- White space or one of the information separators U+001C to U+001F. -/
def isBlank (c : Char) : Bool :=
  isWhiteSpace c || (0x1C ≤ c.toNat && c.toNat ≤ 0x1F)

/-- White space is blank. -/
theorem isBlank_of_isWhiteSpace {c : Char} (h : isWhiteSpace c = true) : isBlank c = true := by
  simp [isBlank, h]

/-- `text` without the leading and trailing characters of the class `p`. -/
def trim (p : Char → Bool) (text : List Char) : List Char :=
  ((text.dropWhile p).reverse.dropWhile p).reverse

/-- `text` in lower case where it is ASCII; all other characters stay. -/
def lowerAscii (text : List Char) : List Char :=
  text.map Char.toLower

end LintBridge.Text
