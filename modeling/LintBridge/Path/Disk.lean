import LintBridge.Path.Basic

/-!
# LintBridge.Path.Disk

What is on the disk, as far as paths are concerned: a tree of directories, files and links, and the
places from which relative paths and `~` start. `entry?` looks a path up without following links.
`stat` follows them, as the operating system does, which gives up after `maxLinks` of them.
-/

namespace LintBridge

/-- A file, a link or a directory. -/
inductive Node where
  | file (bytes : List UInt8) (executable : Bool)
  | link (target : Spelling)
  | directory (entries : List (Spelling × Node))

namespace Node

/-- The node that a path leads to when no link is followed. -/
def find? (node : Node) : List Spelling → Option Node
  | [] => some node
  | name :: rest =>
    match node with
    | .directory entries => (entries.lookup name).bind fun inner => inner.find? rest
    | _ => none

/-- Where the link at the end of a path points, if there is a link. -/
def linkTo? (node : Node) (place : List Spelling) : Option Spelling :=
  match node.find? place with
  | some (.link target) => some target
  | _ => none

/-- `node` with `new` at the end of a path, and directories on the way to it. A directory that is
there already keeps its entries. -/
def planted (node new : Node) : List Spelling → Node
  | [] =>
    match node, new with
    | .directory entries, .directory _ => .directory entries
    | _, _ => new
  | name :: rest =>
    let entries := match node with
      | .directory entries => entries
      | _ => []
    let inner := planted ((entries.lookup name).getD (.directory [])) new rest
    .directory (entries.filter (·.1 ≠ name) ++ [(name, inner)])

mutual

/-- The number of links at or below a node. -/
def linkCount : Node → Nat
  | .file .. => 0
  | .link _ => 1
  | .directory entries => linksIn entries

/-- The number of links at or below the given entries. -/
def linksIn : List (Spelling × Node) → Nat
  | [] => 0
  | (_, node) :: rest => linkCount node + linksIn rest

end

mutual

/-- The number of levels of a node. -/
def height : Node → Nat
  | .file .. | .link _ => 1
  | .directory entries => heightOf entries + 1

/-- The number of levels below a directory with the given entries. -/
def heightOf : List (Spelling × Node) → Nat
  | [] => 0
  | (_, node) :: rest => max (height node) (heightOf rest)

end

end Node

/-- The disk as a process sees it. `current` are the names on the way from the root to the current
directory; no link is among them. `homes` lists home directories by user; that of the user himself
is listed under the empty name. `room` is how many calls find room on the stack of the process when
it reads a document. -/
structure Disk where
  tree : Node
  current : List Spelling
  homes : List (Spelling × Spelling)
  room : Nat := 900

/-- What the operating system makes of a path. -/
inductive Sight where
  | found (node : Node)
  | missing
  | looping

namespace Disk

/-- How many links the operating system follows on one path. -/
def maxLinks : Nat := 40

/-- The current directory. -/
def currentPath (disk : Disk) : Path :=
  ⟨.root, disk.current⟩

/-- A path that starts at the root, with every `..` cancelling the part before it. -/
def absolute (disk : Disk) (p : Path) : Path :=
  let all := disk.currentPath.join p
  { all with parts := Path.collapse all.parts }

/-- The disk with a node put at the place of a path. -/
def planted (disk : Disk) (p : Path) (new : Node) : Disk :=
  { disk with tree := disk.tree.planted new (disk.absolute p).parts }

/-- The node at a path when no link is followed. -/
def entry? (disk : Disk) (p : Path) : Option Node :=
  disk.tree.find? (disk.absolute p).parts

/-- How far the operating system gets before it meets a link. -/
inductive Reach where
  | at (place : List Spelling)
  | missing
  | link (place : List Spelling) (target : Spelling) (rest : List Spelling)

/-- Follows `names` from the directory `place`, whose own names are listed last one first. -/
def reach (tree : Node) (place : List Spelling) : List Spelling → Reach
  | [] => .at place
  | name :: rest =>
    match tree.find? place.reverse with
    | some (.directory _) =>
      if name = [] ∨ name = "." then reach tree place rest
      else if name = ".." then reach tree place.tail rest
      else
        match tree.find? (name :: place).reverse with
        | none => .missing
        | some (.link target) => .link place target rest
        | some _ => reach tree (name :: place) rest
    | _ => .missing

/-- Follows `names` from the directory `place` and through at most `links` links. -/
def sight (tree : Node) (links : Nat) (place names : List Spelling) : Sight :=
  match reach tree place names with
  | .missing => .missing
  | .at place =>
    match tree.find? place.reverse with
    | some node => .found node
    | none => .missing
  | .link place target rest =>
    match links with
    | 0 => .looping
    | links + 1 =>
      let start := if (Path.ofText target).isAbsolute then [] else place
      sight tree links start (pieces target ++ rest)

/-- What the operating system finds at a path. -/
def stat (disk : Disk) (p : Path) : Sight :=
  sight disk.tree maxLinks [] (disk.currentPath.join p).parts

/-- The contents of the file at a path, if there is one. -/
def read? (disk : Disk) (p : Path) : Option (List UInt8) :=
  match disk.stat p with
  | .found (.file bytes _) => some bytes
  | _ => none

/-- Whether a path leads to a file. -/
def isFile (disk : Disk) (p : Path) : Bool :=
  (disk.read? p).isSome

/-- Whether a path leads to a file that may be run. -/
def isExecutable (disk : Disk) (p : Path) : Bool :=
  match disk.stat p with
  | .found (.file _ executable) => executable
  | _ => false

/-- The entries of the directory at a path, if there is one. -/
def list? (disk : Disk) (p : Path) : Option (List (Spelling × Node)) :=
  match disk.stat p with
  | .found (.directory entries) => some entries
  | _ => none

end Disk

end LintBridge
