import AudioProject.Document.Printing
import AudioProject.Store

/-
  Writing documents of a project. A document is written beside its place and moved there, and it
  never takes the place of another one.
-/

namespace AudioProject.Store

/-- The name of the file that a document is written to first. -/
def draftName (path : Path) : String := (path.fileName?.getD "") ++ ".tmp"

/-- Writes the draft and moves it to its place; a draft that cannot be moved goes. -/
def place (draft path : Path) (b : ByteArray) : Action FileTree FileError Unit := do
  let done ← Action.outcome do
    Action.changing fun t => t.write draft b
    Action.changing fun t => t.rename draft path
  match done with
  | .ok () => return
  | .error e =>
    let _ ← Action.outcome (ε := FileError) (Action.changing fun t => t.removeFile draft)
    throw e

def writeFile (path : Path) (b : ByteArray) : Action FileTree Error Unit := do
  let dir := path.parent?.getD ⟨""⟩
  Action.wrapping (Error.file dir) (FileTree.createDirs dir)
  Action.wrapping (Error.file path) (place (dir.join (draftName path)) path b)

/-- Writes the document of `os`, which is that of the first object. -/
def writeDocument (s : Store) (os : List Object) : Action FileTree Error Path := do
  match os with
  | [] => throw (.invalid .emptyDocument)
  | primary :: _ =>
    match s.layout.objectPath? primary.objectClass primary.id with
    | none => throw (.invalid (.noDocumentFor primary.objectClass))
    | some path =>
      if (← get).has path then throw (.alreadyExists primary.id)
      writeFile path (Document.print ⟨s.model, os⟩).toUTF8
      return path

/-- The store with one more entry. -/
def insert (s : Store) (k : Kind) (e : IndexEntry) : Store :=
  { s with indices := s.indices.set k ((s.index k).insert e) }

/-- Writes the document of an object of a kind. From then on the object is in the index. -/
def commit (s : Store) (k : Kind) (os : List Object) : Action FileTree Error (Store × Path) := do
  match os with
  | [] => throw (.invalid .emptyRecord)
  | primary :: _ =>
    match IndexEntry.ofObject? k primary with
    | none => throw (.invalid (.foreignObject primary.objectClass primary.id k))
    | some e =>
      let path ← s.writeDocument os
      return (s.insert k e, path)

/-- Removes a file, if it is there. -/
def removeDocument (path : Path) : Action FileTree Error Unit := do
  match ← Action.outcome (Action.changing fun t => t.removeFile path) with
  | .ok () => return
  | .error .notFound => return
  | .error e => throw (.file path e)

end AudioProject.Store
