import LintBridge.Path.Disk

/-!
# LintBridge.Path.Canonical

One path per file. `canonical` makes a path absolute, replaces every link by what it points to and
cancels every `..`; nothing on the way needs to exist. Reported paths are only ever compared in this
form.

Links are resolved one part at a time. A link that is met again while it is being resolved is part
of a loop: from there on the rest of the path is kept as it is spelled. If the outcome still leads
the operating system round in circles, the path is made absolute by its spelling alone.
-/

namespace LintBridge

namespace Disk

/-- Where the way has led so far, and where the links that were entered lead; a link without an
entry of its own there is still being resolved. -/
structure Way where
  here : Path
  seen : List (Path × Option Path) := []

/-- How a way ends. -/
inductive Course where
  | arrived (way : Way)
  /-- It has met a link that is still being resolved, so the rest is kept as it is spelled. -/
  | looping (p : Path)
  /-- It has entered links one inside the other without end. -/
  | endless

/-- The target of the link at a path, if there is a link. -/
def linkAt? (disk : Disk) (p : Path) : Except Fault (Option Spelling) :=
  if p.parts.any (·.contains '\x00') then .error .nulInPath
  else .ok (disk.tree.linkTo? (disk.absolute p).parts)

/-- Goes along `names`. What is done at a link that has not been met before is left to `enter`. -/
def along (disk : Disk) (enter : Way → Spelling → Except Fault Course) :
    Way → List Spelling → Except Fault Course
  | way, [] => .ok (.arrived way)
  | way, name :: rest =>
    if !Path.counts name then along disk enter way rest
    else if name = ".." then along disk enter { way with here := way.here.up } rest
    else
      let next := way.here.child name
      match disk.linkAt? next with
      | .error fault => .error fault
      | .ok none => along disk enter { way with here := next } rest
      | .ok (some target) =>
        match way.seen.lookup next with
        | some (some known) => along disk enter { way with here := known } rest
        | some none => .ok (.looping (next.join (.ofPieces rest)))
        | none =>
          match enter { way with seen := (next, none) :: way.seen } target with
          | .ok (.arrived way) =>
            along disk enter { way with seen := (next, some way.here) :: way.seen } rest
          | .ok (.looping p) => .ok (.looping (p.join (.ofPieces rest)))
          | other => other

/-- Goes along `names`, entering at most `depth` links one inside the other. -/
def follow (disk : Disk) : Nat → Way → List Spelling → Except Fault Course
  | 0 => disk.along fun _ _ => .ok .endless
  | depth + 1 => disk.along fun way target =>
    let start := if (Path.ofText target).isAbsolute then Path.root else way.here
    follow disk depth { way with here := start } (pieces target)

/-- How many links can be entered one inside the other: each of them once under every spelling that
a way can have for it without going round in circles. -/
def linkDepth (disk : Disk) : Nat :=
  (disk.current.length + 2) * disk.tree.linkCount

/-- Where the way along a path starts. -/
def start (p : Path) : Path :=
  ⟨if p.isAbsolute then .root else .relative, []⟩

/-- The path with its links resolved; none if that has no end. -/
def resolve (disk : Disk) (p : Path) : Except Fault (Option Path) :=
  match disk.follow disk.linkDepth { here := start p } p.parts with
  | .error fault => .error fault
  | .ok (.arrived way) => .ok (some (disk.absolute way.here))
  | .ok (.looping q) => .ok (some (disk.absolute q))
  | .ok .endless => .ok none

/-- The path to use for `p` once its links have been resolved: where the operating system is led
round in circles, the spelling of `p` is all there is to go by. -/
def settled (disk : Disk) (p : Path) : Option Path → Except Fault Path
  | none => .ok (disk.absolute p)
  | some resolved =>
    if resolved.parts.any (·.contains '\x00') then .error .nulInPath
    else
      match disk.stat resolved with
      | .looping => .ok (disk.absolute p)
      | _ => .ok resolved

/-- The path with a leading `~` replaced by the home directory that it stands for. -/
def expandHome (disk : Disk) (p : Path) : Except Fault Path :=
  match p.anchor, p.parts with
  | .relative, first :: rest =>
    match first with
    | '~' :: user =>
      if user.contains '\x00' then .error .nulInPath
      else
        match disk.homes.lookup user with
        | some home => .ok ((Path.ofText home).join ⟨.relative, rest⟩)
        | none => .error .unknownHome
    | _ => .ok p
  | _, _ => .ok p

/-- The one path of a file. -/
def canonical (disk : Disk) (p : Path) : Except Fault Path := do
  let p ← disk.expandHome p
  let resolved ← disk.resolve p
  disk.settled p resolved

/-- The one path of a file that the linter names: a relative name is one as seen from the workspace,
or from `fallback` when there is none. -/
def reported (disk : Disk) (workspace fallback : Option Path) (p : Path) : Except Fault Path :=
  if p.isAbsolute then disk.canonical p
  else
    match workspace.or fallback with
    | some base => disk.canonical (base.join p)
    | none => disk.canonical p

/-- The path that a text spells, up to the first part that no file can have as its name. -/
def nameable (text : Str) : Path :=
  let parts := (pieces text).filter Path.counts
  ⟨Path.anchorOf (pieces text), (parts.map Str.spelling?).takeWhile Option.isSome |>.filterMap id⟩

/-- The one path of the file that a report calls `name`. A name that no file can have is a fault, if
none comes up on the way to it. -/
def reportedAs (disk : Disk) (workspace fallback : Option Path) (name : Str) :
    Except Fault Path :=
  match name.spelling? with
  | some text => disk.reported workspace fallback (.ofText text)
  | none => do
    let p := nameable name
    let way ← disk.expandHome (((workspace.or fallback).map (·.join p)).getD p)
    let _ ← disk.resolve way
    throw .unencodable

theorem reportedAs_ofString (disk : Disk) (workspace fallback : Option Path) (text : String) :
    disk.reportedAs workspace fallback text = disk.reported workspace fallback (.ofText text) := by
  simp [reportedAs]

theorem reportedAs_toStr (disk : Disk) (workspace fallback : Option Path) (text : Spelling) :
    disk.reportedAs workspace fallback text.toStr =
      disk.reported workspace fallback (.ofText text) := by
  simp [reportedAs]

/-- Whether two paths lead to the same file. -/
def sameFile (disk : Disk) (p q : Path) : Except Fault Bool := do
  let p ← disk.canonical p
  let q ← disk.canonical q
  return p = q

end Disk

/-- How the linter is told about a file: the directory that it runs in, and the name of the file as
seen from there. -/
structure Invocation where
  directory : Path
  target : Spelling
  deriving DecidableEq, Repr

/-- The linter runs in the workspace, or in the directory of the file when there is none. -/
def Disk.invocation (disk : Disk) (file : Path) (workspace : Option Path) :
    Except Fault Invocation := do
  let file ← disk.canonical file
  match workspace with
  | some base =>
    let base ← disk.canonical base
    return ⟨base, (file.within? base).getD (file.relativeTo base)⟩
  | none => return ⟨file.parent, file.name⟩

end LintBridge
