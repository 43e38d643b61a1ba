import AudioProject.AssetPath
import AudioProject.Hierarchy
import AudioProject.Object

/-
  What is known of the objects of one kind: an entry for each id, the tree of those that name a
  parent, and the asset folders by path. An id that comes again takes its new entry; a parent
  that an earlier entry named stays in the tree until a new one is named.
-/

namespace AudioProject

/-- Where an object stands among its kind. -/
inductive Position where
  /-- A master folder, or a bus without output. -/
  | root
  | parent (id : ObjectId)
  /-- An asset folder, which its path places. -/
  | path (p : AssetPath)
  deriving DecidableEq

structure IndexEntry where
  id : ObjectId
  objectClass : ObjectClass
  name : String
  position : Position
  deriving DecidableEq

namespace IndexEntry

/-- The class of the master folder of a kind. -/
def masterClass? : Kind → Option ObjectClass
  | .eventFolder => some .masterEventFolder
  | .assetFolder => some .masterAssetFolder
  | .bank => some .masterBankFolder
  | .bus => none

/-- The position of an object of a kind. A kind without parent edge needs a valid path. -/
def position? (k : Kind) (o : Object) : Option Position :=
  if masterClass? k = some o.objectClass then
    some (if k = .assetFolder then .path .root else .root)
  else if k.accepts o.objectClass then
    match k.parentEdge? with
    | some edge =>
      match o.singleEdge? edge with
      | some parent => some (.parent parent)
      | none => some .root
    | none =>
      match o.property? "assetPath" with
      | none => none
      | some text =>
        match AssetPath.ofString? text with
        | .ok p => some (.path p)
        | .error _ => none
  else none

/-- The name of an object at a position. Asset folders without one are named by their path. -/
def nameAt (o : Object) : Position → String
  | .path p => o.name?.getD p.name
  | _ => o.name?.getD ""

/-- The entry of an object, if it belongs to the kind. -/
def ofObject? (k : Kind) (o : Object) : Option IndexEntry :=
  (position? k o).map fun p => ⟨o.id, o.objectClass, nameAt o p, p⟩

def parent? (e : IndexEntry) : Option ObjectId :=
  match e.position with
  | .parent id => some id
  | _ => none

def assetPath? (e : IndexEntry) : Option AssetPath :=
  match e.position with
  | .path p => some p
  | _ => none

def isRoot (e : IndexEntry) : Bool :=
  match e.position with
  | .root => true
  | .path p => p.isRoot
  | .parent _ => false

end IndexEntry

structure KindIndex where
  kind : Kind
  entries : OrderedMap ObjectId IndexEntry := ∅
  tree : Hierarchy := {}
  paths : OrderedMap AssetPath ObjectId := ∅
  /-- An entry stands under its own id. -/
  keyed : ∀ id e, entries.get? id = some e → e.id = id := by simp
  /-- A path leads to an entry. -/
  known : ∀ p id, paths.get? p = some id → entries.contains id := by simp

namespace KindIndex

def empty (k : Kind) : KindIndex := { kind := k }

def insert (x : KindIndex) (e : IndexEntry) : KindIndex where
  kind := x.kind
  entries := x.entries.insert e.id e
  tree :=
    match e.parent? with
    | some parent => x.tree.addEdge e.id parent
    | none => x.tree
  paths :=
    match e.assetPath? with
    | some p => x.paths.insert p e.id
    | none => x.paths
  keyed := by
    intro id e' h
    rw [OrderedMap.get?_insert] at h
    split at h
    · next hid =>
      cases h
      exact hid
    · exact x.keyed id e' h
  known := by
    intro p id h
    have hold : x.paths.get? p = some id → (x.entries.insert e.id e).contains id := by
      intro hp
      have hin := x.known p id hp
      rw [OrderedMap.contains_insert, hin, Bool.or_true]
    split at h
    · rw [OrderedMap.get?_insert] at h
      split at h
      · cases h
        rw [OrderedMap.contains_insert]
        simp
      · exact hold h
    · exact hold h

def get? (x : KindIndex) (id : ObjectId) : Option IndexEntry := x.entries.get? id

def contains (x : KindIndex) (id : ObjectId) : Bool := x.entries.contains id

def size (x : KindIndex) : Nat := x.entries.size

def isEmpty (x : KindIndex) : Bool := x.entries.isEmpty

/-- The entries in the order in which their ids came in. -/
def list (x : KindIndex) : List IndexEntry := x.entries.values

def roots (x : KindIndex) : List IndexEntry := x.list.filter (·.isRoot)

/-- The entry that was last put at a path. -/
def byPath? (x : KindIndex) (p : AssetPath) : Option IndexEntry := (x.paths.get? p).bind x.get?

/-- Puts in every object that belongs to the kind. -/
def insertObjects (x : KindIndex) (os : List Object) : KindIndex :=
  os.foldl (fun x o =>
    match IndexEntry.ofObject? x.kind o with
    | some e => x.insert e
    | none => x) x

end KindIndex

end AudioProject
