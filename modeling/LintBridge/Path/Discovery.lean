import LintBridge.Path.Canonical
import LintBridge.Settings.Basic

/-!
# LintBridge.Path.Discovery

Finding the scripts below a directory. In every directory its own scripts come first, by name, and
then its subdirectories, by name. A link counts as what it points to; one that points nowhere counts
as a file. Directories behind links are looked into only on request.
-/

namespace LintBridge

namespace Disk

/-- What to look for. -/
structure Search where
  excluded : List Spelling := ["node_modules", ".git"]
  followLinks : Bool := false
  deriving DecidableEq, Repr

/-- Names in the order of their characters' numbers. -/
def sorted (names : List Spelling) : List Spelling :=
  names.mergeSort fun a b => !decide (b < a)

/-- Whether a path leads to a directory. -/
def isDirectory (disk : Disk) (p : Path) : Bool :=
  (disk.list? p).isSome

/-- Whether a node is a link. -/
def isLink : Node → Bool
  | .link _ => true
  | _ => false

/-- The scripts among the entries of the directory `top`. -/
def scriptsIn (disk : Disk) (top : Path) (entries : List (Spelling × Node)) : List Path :=
  let names := (entries.map (·.1)).filter fun name => !disk.isDirectory (top.child name)
  ((sorted names).filter (scriptSuffix.isSuffixOf ·)).map top.child

/-- The subdirectories of the directory `top` that are searched. -/
def subdirectories (disk : Disk) (search : Search) (top : Path) (entries : List (Spelling × Node)) :
    List Path :=
  let inner := entries.filter fun (name, node) =>
    disk.isDirectory (top.child name) && !search.excluded.contains name &&
      (search.followLinks || !isLink node)
  (sorted (inner.map (·.1))).map top.child

/-- The scripts at most `levels` levels below the directory `top`. -/
def scriptsBelow (disk : Disk) (search : Search) : Nat → Path → List Path
  | 0, _ => []
  | levels + 1, top =>
    match disk.list? top with
    | none => []
    | some entries =>
      disk.scriptsIn top entries ++
        (disk.subdirectories search top entries).flatMap (disk.scriptsBelow search levels)

/-- How many levels a search can go down: between two links no further than the tree is high. -/
def searchDepth (disk : Disk) : Nat :=
  (maxLinks + 1) * (disk.tree.height + 1)

/-- The scripts below the directory `root`. -/
def discover (disk : Disk) (search : Search) (root : Path) : Except Fault (List Path) :=
  if root.parts.any (·.contains '\x00') then .error .nulInPath
  else (disk.scriptsBelow search disk.searchDepth root).mapM disk.canonical

end Disk

end LintBridge
