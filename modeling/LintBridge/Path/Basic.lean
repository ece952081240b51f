import LintBridge.Failure
import LintBridge.Text.Utf8

/-!
# LintBridge.Path.Basic

File paths as lists of parts, without looking at any file. Reading a path drops empty parts and the
part `.`, which change nothing, but keeps `..`, whose meaning depends on what is on the disk. A path
that starts with exactly two slashes is told apart from one that starts with one or with three.
-/

namespace LintBridge

open LintBridge.Text

/-- Where a path starts. -/
inductive Anchor where
  | relative
  | root
  | doubleRoot
  deriving DecidableEq, Repr

/-- A path. -/
structure Path where
  anchor : Anchor
  parts : List Spelling
  deriving DecidableEq, Repr

section

variable {υ : Type} [DecidableEq υ]

/-- The pieces between the slashes of a text; there is always at least one. -/
def pieces (text : Letters υ) : List (Letters υ) :=
  text.splitOn '/'

namespace Path

/-- Whether a piece of a path says anything. -/
def counts (piece : Letters υ) : Bool :=
  piece != [] && piece != "."

/-- The anchor of a path that consists of the given pieces. -/
def anchorOf : List (Letters υ) → Anchor
  | [] :: [] :: [] :: _ :: _ => .root
  | [[], [], []] => .doubleRoot
  | [] :: [] :: _ :: _ => .doubleRoot
  | [] :: _ :: _ => .root
  | _ => .relative

end Path

end

namespace Path

/-- The path that consists of the given pieces. -/
def ofPieces (all : List Spelling) : Path :=
  ⟨anchorOf all, all.filter counts⟩

/-- The path that a text spells. -/
def ofText (text : Spelling) : Path :=
  ofPieces (pieces text)

/-- The root directory. -/
def root : Path := ⟨.root, []⟩

/-- Whether the path starts at a root. -/
def isAbsolute (p : Path) : Bool :=
  p.anchor != .relative

/-- Parts with slashes between them. -/
def joined (parts : List Spelling) : Spelling :=
  List.intercalate ['/'] parts

/-- The text of a path. -/
def toText (p : Path) : Spelling :=
  match p.anchor, p.parts with
  | .relative, [] => "."
  | .relative, parts => joined parts
  | .root, parts => '/' :: joined parts
  | .doubleRoot, parts => '/' :: '/' :: joined parts

/-- `q` as seen from the directory `p`. -/
def join (p q : Path) : Path :=
  if q.isAbsolute then q else { p with parts := p.parts ++ q.parts }

/-- The entry `name` of the directory `p`. -/
def child (p : Path) (name : Spelling) : Path :=
  { p with parts := p.parts ++ [name] }

/-- The directory that a path lies in, by its spelling. -/
def parent (p : Path) : Path :=
  { p with parts := p.parts.dropLast }

/-- The last part of a path. -/
def name (p : Path) : Spelling :=
  p.parts.getLastD []

/-- The directory above the directory `p`, provided `p` holds no `..` that could be cancelled: above
the root is the root, and above a relative path is another one. -/
def up (p : Path) : Path :=
  match p.anchor, p.parts.getLast? with
  | .relative, none => p.child ".."
  | .relative, some last => if last = ".." then p.child ".." else p.parent
  | _, _ => p.parent

/-- The parts with every `..` cancelling the part before it. -/
def collapse (parts : List Spelling) : List Spelling :=
  (parts.foldl (fun kept part => if part = (".." : Spelling) then kept.tail else part :: kept)
    []).reverse

/-- The text of `p` as seen from the directory `base`, if it lies in it. -/
def within? (p base : Path) : Option Spelling :=
  if p.anchor = base.anchor ∧ base.parts <+: p.parts then
    some (Path.toText ⟨.relative, p.parts.drop base.parts.length⟩)
  else none

/-- How many parts two paths have in common from the start. -/
def commonLength : List Spelling → List Spelling → Nat
  | a :: as, b :: bs => if a = b then commonLength as bs + 1 else 0
  | _, _ => 0

/-- The text of the absolute path `p` as seen from the absolute directory `base`, going up to what
both have in common. -/
def relativeTo (p base : Path) : Spelling :=
  let shared := commonLength p.parts base.parts
  Path.toText ⟨.relative,
    List.replicate (base.parts.length - shared) (".." : Spelling) ++ p.parts.drop shared⟩

/-- The directory name under which version control keeps its own files. -/
def vcsDirectory : Spelling := ".git"

/-- Whether the path leads through the directory of version control. -/
def hasVcsPart (p : Path) : Bool :=
  p.parts.contains vcsDirectory

/-- A character that URIs spell as it is. -/
def isUriSafe (n : Nat) : Bool :=
  let c := Char.ofNat n
  c.isAlphanum || c = '_' || c = '.' || c = '-' || c = '~' || c = '/'

/-- A byte in a URI. -/
def uriByte (b : UInt8) : List Char :=
  if isUriSafe b.toNat then [Char.ofNat b.toNat]
  else '%' :: (hexByte b).map Char.toUpper

/-- The bytes of a text that names a file. -/
def bytes (text : Spelling) : List UInt8 :=
  text.flatMap fun
    | .char c => Utf8.encodeChar c
    | .unit b => [(0x80 + b.val).toUInt8]

/-- The URI of a path. -/
def toUri (p : Path) : Except Fault String :=
  if p.isAbsolute then
    .ok (String.ofList ("file://".toList ++ (bytes p.toText).flatMap uriByte))
  else .error .relativeUri

end Path

end LintBridge
