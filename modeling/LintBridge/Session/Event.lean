import LintBridge.Diagnostic
import LintBridge.Path.FileMap
import LintBridge.Tool.Command

/-!
# LintBridge.Session.Event

What a session does that others can see: it shows things to the user through the editor, writes to
the log, runs the linter and waits. The diagnostics on show at any time follow from the events so
far; a `Board` keeps them.
-/

namespace LintBridge

open LintBridge.Number

/-- Something that a session does. -/
inductive Event where
  /-- The diagnostics on show for a file are replaced. -/
  | publish (file : Path) (diagnostics : List Diagnostic)
  /-- No diagnostics are on show any more. -/
  | clear
  | showError (message : Str)
  | showInfo (message : Str)
  /-- An error is written to the log. -/
  | log (message : Str)
  /-- A run of the linter is started. -/
  | call (call : Call)
  /-- Nothing happens for some seconds. -/
  | pause (seconds : Binary64)
  deriving DecidableEq, Repr

/-- The run of the linter that an event starts. -/
def Event.call? : Event → Option Call
  | call c => some c
  | _ => none

/-- The diagnostics on show, by file. -/
abbrev Board := FileMap (List Diagnostic)

namespace Board

/-- The board after an event. -/
def after (board : Board) : Event → Board
  | .publish file diagnostics => board.put file diagnostics
  | .clear => []
  | _ => board

/-- All diagnostics on show. -/
def diagnostics (board : Board) : List Diagnostic :=
  board.flatMap (·.2)

/-- How many diagnostics are on show. -/
def count (board : Board) : Nat :=
  board.diagnostics.length

end Board

end LintBridge
