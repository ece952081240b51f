import LintBridge.Failure
import LintBridge.Text.Columns

/-!
# LintBridge.Terminal.Line

Text as a terminal gets it. Control characters that would move the cursor or ring the bell are left
out and tabs are expanded. Otherwise messages are printed as they are: no brackets or colons in them
have a meaning.

A terminal gets UTF-8. A line with a letter that is no character cannot be printed, and the attempt
ends whoever has made it.
-/

namespace LintBridge

open LintBridge.Text

namespace Terminal

/-- The control characters that are left out: bell, backspace, vertical tab, form feed and carriage
return. -/
def isLeftOut (c : Char) : Bool :=
  [0x07, 0x08, 0x0b, 0x0c, 0x0d].contains c.toNat

/-- A line of characters as it is printed, with the line feed at its end. -/
def printed (line : List Char) : String :=
  String.ofList (expandTabs 0 (line.filter (!isLeftOut ·)) ++ ['\n'])

/-- What comes of printing: what has been printed, and the fault that came up, if one did. -/
structure Output where
  printed : String := ""
  fault : Option Fault := none
  deriving DecidableEq, Repr

/-- What comes of printing lines one after another. -/
def print : List Str → Output
  | [] => {}
  | line :: rest =>
    match line.chars? with
    | none => { fault := some .unencodable }
    | some chars =>
      let later := print rest
      { later with printed := printed chars ++ later.printed }

/-- A proper text can be printed. -/
theorem print_ofString (text : String) :
    print [Letters.ofString text] = { printed := printed text.toList } := by
  simp [print]

end Terminal

/-- The kinds of notices for the user. -/
inductive Notice where
  | info
  | ok
  | warn
  | fail
  deriving DecidableEq, Repr

namespace Notice

/-- All kinds of notices. -/
def all : List Notice := [info, ok, warn, fail]

/-- The name of the kind. -/
def name : Notice → String
  | info => "info"
  | ok => "ok"
  | warn => "warn"
  | fail => "fail"

/-- The kind of the given name. -/
def ofName? (s : String) : Option Notice :=
  all.find? (·.name = s)

/-- The emoji that marks a notice. -/
def mark : Notice → String
  | info => "\u2139\ufe0f "
  | ok => "\u2705 "
  | warn => "\u26a0\ufe0f "
  | fail => "\u274c "

/-- A symbol where emoji are wanted, nothing elsewhere. -/
def symbol (emoji : Bool) (text : String) : String :=
  if emoji then text else ""

/-- The line of a notice. -/
def line (kind : Notice) (emoji : Bool) (message : Str) : Str :=
  symbol emoji kind.mark ++ message

theorem line_ofString (kind : Notice) (emoji : Bool) (message : String) :
    kind.line emoji message = Letters.ofString (symbol emoji kind.mark ++ message) :=
  (Letters.ofString_append _ _).symm

end Notice

end LintBridge
