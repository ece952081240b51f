import LintBridge.Document.Edits
import LintBridge.Path.Canonical

/-!
# LintBridge.Document.Buffer

A document as the editor holds it, unsaved changes included.
-/

namespace LintBridge

/-- A document. -/
structure Buffer where
  path : Path
  uri : Str
  content : Content
  languageId : String := "nushell"
  scheme : String := "file"
  deriving DecidableEq, Repr

namespace Buffer

/-- The scheme of the URIs of files. -/
def fileScheme : String := "file"

/-- The document with the given path and text. Documents that are no files have a URI of their own
scheme, which spells their path as it is. -/
def opened (disk : Disk) (p : Path) (text : Str) (languageId : String := "nushell")
    (scheme : String := "file") : Except Fault Buffer := do
  let path ← disk.canonical p
  let uri : Str ←
    if scheme = fileScheme then do
      let uri ← path.toUri
      pure uri
    else pure (scheme ++ ":" ++ path.toText.toStr)
  return { path, uri, languageId, scheme, content := .ofText text }

/-- Whether the document is a file. -/
def isFile (b : Buffer) : Bool :=
  (fileScheme ++ ":" : Str).isPrefixOf b.uri

/-- The document with another text. -/
def setText (b : Buffer) (text : Str) : Buffer :=
  { b with content := .ofText text }

/-- The document with all edits applied, or none of them. -/
def applyEdits (b : Buffer) (edits : List TextEdit) : Except Overlap Buffer :=
  (b.content.edited edits).map b.setText

/-- Applying edits as a step of the document. -/
def editing (edits : List TextEdit) : EStateM Overlap Buffer Unit := do
  let text ← MonadExcept.ofExcept ((← get).content.edited edits)
  modify (·.setText text)

end Buffer

end LintBridge
