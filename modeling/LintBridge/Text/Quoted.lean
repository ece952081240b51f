import LintBridge.Text.Printable

/-!
# LintBridge.Text.Quoted

Quoted names, as system errors show them: `'a.nu'`. The quote is an apostrophe unless the name
holds apostrophes and no double quote. The quote in use and the backslash are escaped, line feed,
carriage return and tab by letter, and whatever is not printable by its number.
-/

namespace LintBridge.Text

/-- `n` in lower-case hexadecimal, padded with zeros to `width` places. -/
def hexPadded (width n : Nat) : List Char :=
  let digits := Nat.toDigits 16 n
  List.replicate (width - digits.length) '0' ++ digits

/-- A character between two of the quotes `quote`. -/
def quoteChar (quote c : Char) : List Char :=
  if c = quote || c = '\\' then ['\\', c]
  else if c = '\n' then ['\\', 'n']
  else if c = '\r' then ['\\', 'r']
  else if c = '\t' then ['\\', 't']
  else if isPrintable c then [c]
  else if c.toNat < 0x100 then '\\' :: 'x' :: hexPadded 2 c.toNat
  else if c.toNat < 0x10000 then '\\' :: 'u' :: hexPadded 4 c.toNat
  else '\\' :: 'U' :: hexPadded 8 c.toNat

/-- `name` between quotes. -/
def quoted (name : String) : String :=
  let chars := name.toList
  let quote := if chars.contains '\'' && !chars.contains '"' then '"' else '\''
  String.ofList (quote :: chars.flatMap (quoteChar quote) ++ [quote])

end LintBridge.Text
