import AudioProject.AssetPath
import AudioProject.Object

/-
  Records that wait to be committed: an object and the objects that share its document. A record
  has its id from the start, so that records can name each other before any of them is on disk.
-/

namespace AudioProject

structure PendingRecord where
  object : Object
  siblings : List Object := []
  deriving DecidableEq

namespace PendingRecord

def id (r : PendingRecord) : ObjectId := r.object.id

/-- The objects of the document. -/
def objects (r : PendingRecord) : List Object := r.object :: r.siblings

/-- The path of an asset folder. -/
def assetPath? (r : PendingRecord) : Option AssetPath :=
  match r.object.property? "assetPath" with
  | none => none
  | some text =>
    match AssetPath.ofString? text with
    | .ok p => some p
    | .error _ => none

/-- The object that the parent edge of a kind leads to. -/
def parent? (r : PendingRecord) (k : Kind) : Option ObjectId :=
  k.parentEdge?.bind r.object.singleEdge?

/-- The same record under another id. -/
def withId (r : PendingRecord) (id : ObjectId) : PendingRecord :=
  { r with object := { r.object with id := id } }

/-! ## New records -/

/-- An object with a name and an edge `folder`. -/
def inFolder (c : ObjectClass) (name : String) (parent : ObjectId) (ids : IdSupply) :
    PendingRecord × IdSupply :=
  let (id, ids) := ids.mint
  let o : Object := { id := id, objectClass := c }
  (⟨(o.setProperty "name" name).setEdge "folder" [parent], []⟩, ids)

def eventFolder (name : String) (parent : ObjectId) (ids : IdSupply) : PendingRecord × IdSupply :=
  inFolder .eventFolder name parent ids

def bankFolder (name : String) (parent : ObjectId) (ids : IdSupply) : PendingRecord × IdSupply :=
  inFolder .bankFolder name parent ids

def bank (name : String) (parent : ObjectId) (ids : IdSupply) : PendingRecord × IdSupply :=
  inFolder .bank name parent ids

/-- A bus that leads to `output`, with its effect chain, its panner and its fader. -/
def bus (name : String) (output : ObjectId) (ids : IdSupply) : PendingRecord × IdSupply :=
  let (chain, ids) := ids.mint
  let (panner, ids) := ids.mint
  let (fader, ids) := ids.mint
  let (group, ids) := ids.mint
  let o : Object := { id := group, objectClass := .mixerGroup }
  let o := o.setProperty "name" name
  let o := ((o.setEdge "effectChain" [chain]).setEdge "panner" [panner]).setEdge "output" [output]
  (⟨o, [({ id := chain, objectClass := .mixerBusEffectChain } : Object).setEdge "effects" [fader],
        { id := panner, objectClass := .mixerBusPanner },
        { id := fader, objectClass := .mixerBusFader }]⟩, ids)

def assetFolder (path : AssetPath) (ids : IdSupply) : PendingRecord × IdSupply :=
  let (id, ids) := ids.mint
  let o : Object := { id := id, objectClass := .assetFolder }
  (⟨o.setProperty "assetPath" path.text, []⟩, ids)

end PendingRecord

end AudioProject
