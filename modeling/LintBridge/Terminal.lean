import LintBridge.Document.Buffer
import LintBridge.Session.Event
import LintBridge.Terminal.Line

/-!
# LintBridge.Terminal

A terminal in the place of an editor. Diagnostics are printed when they are published, one line
each and one more for every remark; notices are printed as they come.
-/

namespace LintBridge

/-- A terminal. Paths below `root` are printed as seen from there. -/
structure Terminal where
  root : Option Path := none
  emoji : Bool := true
  board : Board := []
  errors : List Str := []

namespace Terminal

/-- What a path is called. -/
def label (t : Terminal) (file : Path) : Spelling :=
  (t.root.bind file.within?).getD file.toText

/-- The line for a diagnostic. Lines and columns count from one. -/
def lineFor (t : Terminal) (file : Path) (d : Diagnostic) : Str :=
  let place := s!":{d.range.start.line + 1}:{d.range.start.character + 1}"
  (t.label file).toStr ++ s!"{place} {d.severity.label} " ++ d.message

/-- The lines for a diagnostic and its remarks. -/
def report (t : Terminal) (file : Path) (d : Diagnostic) : List Str :=
  t.lineFor file d :: d.related.map fun remark => "    hint: " ++ remark.message

/-- The lines for an event. -/
def lines (t : Terminal) : Event → List Str
  | .publish file diagnostics => diagnostics.flatMap (t.report file)
  | .showError message => [Notice.fail.line t.emoji message]
  | .showInfo message => [Notice.info.line t.emoji message]
  | _ => []

/-- The terminal after an event. -/
def after (t : Terminal) (e : Event) : Terminal :=
  { t with
    board := t.board.after e
    errors := match e with
      | .showError message => t.errors ++ [message]
      | _ => t.errors }

/-- How a terminal fares: what has happened, the terminal after it and what has come of printing. -/
structure Course where
  events : List Event
  terminal : Terminal
  output : Output

/-- What comes of several events. None happens after one whose lines cannot be printed. -/
def run (t : Terminal) : List Event → Course
  | [] => ⟨[], t, {}⟩
  | e :: rest =>
    let first := print (t.lines e)
    if first.fault.isSome then ⟨[e], t.after e, first⟩
    else
      let later := (t.after e).run rest
      ⟨e :: later.events, later.terminal,
        { later.output with printed := first.printed ++ later.output.printed }⟩

/-- What comes of edits of a document: the edited document, or the notice that the edits overlap. -/
def edit (b : Buffer) (edits : List TextEdit) : Except Event Buffer :=
  (b.applyEdits edits).mapError fun overlap => .showError overlap.message

/-- Whether edits of a document apply, the document and the terminal afterwards, and what is
printed. -/
def applyEdits (t : Terminal) (b : Buffer) (edits : List TextEdit) :
    Bool × Buffer × Terminal × Output :=
  match edit b edits with
  | .ok edited => (true, edited, t, {})
  | .error notice => (false, b, t.after notice, print (t.lines notice))

end Terminal

end LintBridge
