import AudioProject.EventGraph
import AudioProject.Store

/-
  Events of a project. Listing a folder reads every event document, and loading an event reads
  its own.
-/

namespace AudioProject

/-- What a listing says of an event. -/
structure EventSummary where
  id : ObjectId
  name : String
  folder? : Option ObjectId
  file : Path
  deriving DecidableEq

namespace Store

def eventPath? (s : Store) (id : ObjectId) : Option Path := s.layout.objectPath? .event id

def summaryOf (file : Path) (o : Object) : EventSummary :=
  ⟨o.id, o.name?.getD "", o.singleEdge? "folder", file⟩

/-- Whether an event in `folder?` is in `folder` or below it. -/
def isUnder (s : Store) (folder : ObjectId) (folder? : Option ObjectId) : Bool :=
  match folder? with
  | some p => p = folder || s.isDescendant .eventFolder p folder
  | none => false

/-- By name, and by id where names are equal. -/
def nameOrder (a b : String × ObjectId) : Bool :=
  a.1 < b.1 || (a.1 = b.1 && a.2.text ≤ b.2.text)

/-- The events in an event folder and in the folders below it. -/
def eventsIn (s : Store) (t : FileTree) (folder : ObjectId) :
    Except Error (List EventSummary) := do
  let _ ← s.resolve .eventFolder folder
  let documents ← documentsIn t s.layout.eventDir
  let events := documents.flatMap fun e => (e.2.allOf .event).map (summaryOf e.1)
  let inside := events.filter fun e => s.isUnder folder e.folder?
  return inside.mergeSort fun a b => nameOrder (a.name, a.id) (b.name, b.id)

/-- Whether an event document exists. -/
def hasEvent (s : Store) (t : FileTree) (id : ObjectId) : Bool :=
  match s.eventPath? id with
  | some path => t.has path
  | none => false

/-- An event with all that its document holds of it. -/
def loadEvent (s : Store) (t : FileTree) (id : ObjectId) : Except Error EventGraph :=
  match s.eventPath? id with
  | none => .error (.notFound "event" id)
  | some path =>
    if t.has path then do
      let d ← readDocument t path
      match EventGraph.extract? id d.model d.objects with
      | some g => .ok g
      | none => .error (.notFound "event" id)
    else .error (.notFound "event" id)

end Store

end AudioProject
