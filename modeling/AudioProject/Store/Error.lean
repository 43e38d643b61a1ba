import AudioProject.Document
import AudioProject.Files.Error
import AudioProject.Kind
import AudioProject.Path

/-
  Why a project cannot be read, or a document cannot be written.
-/

namespace AudioProject.Store

/-- What keeps files from being a project, and objects from being a document of it. -/
inductive Flaw where
  | noWorkspace
  | missingPointer (label : String)
  | noMasterBus
  | masterBuses (ids : List ObjectId)
  | undefinedMaster (what : String) (id : ObjectId)
  | emptyDocument
  | noDocumentFor (c : ObjectClass)
  | emptyRecord
  | foreignObject (c : ObjectClass) (id : ObjectId) (k : Kind)
  deriving DecidableEq

namespace Flaw

open Text

def message : Flaw → String
  | noWorkspace => "Workspace.xml has no Workspace object"
  | missingPointer label => "Workspace.xml is missing '" ++ label ++ "'"
  | noMasterBus => "no bus without an output edge; the master bus is missing"
  | masterBuses ids =>
    toString ids.length ++ " buses have no output edge: " ++ joined ", " (ids.map (·.text))
  | undefinedMaster what id =>
    what ++ " " ++ id.text ++ " is referenced by Workspace.xml but not defined"
  | emptyDocument => "cannot write an empty document"
  | noDocumentFor c => "class " ++ c.name ++ " cannot own a document"
  | emptyRecord => "cannot commit an empty record"
  | foreignObject c id k => c.name ++ " " ++ id.text ++ " does not belong to " ++ k.name

end Flaw

inductive Error where
  /-- No object has this id, or no event does. -/
  | notFound (what : String) (id : ObjectId)
  /-- The document of a new object is there already. -/
  | alreadyExists (id : ObjectId)
  | missingFile (path : Path)
  | parse (path : Path) (e : Document.Error)
  | invalid (why : Flaw)
  | file (path : Path) (e : FileError)
  deriving DecidableEq

def Error.message : Error → String
  | notFound what id => what ++ " not found: " ++ id.text
  | alreadyExists id => "object already exists: " ++ id.text
  | missingFile path => "missing project file: " ++ path.text
  | parse path e => "failed to parse " ++ path.text ++ ": " ++ e.message
  | invalid why => "invalid project: " ++ why.message
  | file path e => "i/o error at " ++ path.text ++ ": " ++ e.message

end AudioProject.Store
