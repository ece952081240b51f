import LintBridge.Path.Canonical
import LintBridge.Path.FileMap

/-!
# LintBridge.Store

The records of the last lint run of every file. A run replaces all records of a file, so what has
been mended disappears. Files are listed in the order in which they came in.
-/

namespace LintBridge

/-- Records by file. -/
structure Store where
  slices : FileMap (List Record) := []
  deriving Repr

namespace Store

/-- Replaces the records of a file. -/
def replace (disk : Disk) (s : Store) (p : Path) (records : List Record) : Except Fault Store := do
  let file ← disk.canonical p
  return ⟨s.slices.put file records⟩

/-- The records of a file; none if it has not been linted. -/
def lookup (disk : Disk) (s : Store) (p : Path) : Except Fault (List Record) := do
  let file ← disk.canonical p
  return (s.slices.get? file).getD []

/-- Whether a file has a slice, be it an empty one. -/
def contains (disk : Disk) (s : Store) (p : Path) : Except Fault Bool := do
  let file ← disk.canonical p
  return (s.slices.get? file).isSome

/-- Forgets a file. -/
def discard (disk : Disk) (s : Store) (p : Path) : Except Fault Store := do
  let file ← disk.canonical p
  return ⟨s.slices.erase file⟩

/-- The files that have a slice. -/
def files (s : Store) : List Path :=
  s.slices.files

end Store

end LintBridge
