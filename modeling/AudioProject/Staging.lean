import AudioProject.Journal.Files
import AudioProject.PendingRecord
import AudioProject.Store

/-
  Records that are to be committed together, one table for each kind in staging order. An id is
  staged once, whatever the kind, and so is the path of an asset folder.
-/

namespace AudioProject

/-- How many objects of each kind were committed. -/
abbrev Counts := ByKind Nat

namespace Counts

def zero : Counts := .all 0

def increment (c : Counts) (k : Kind) : Counts := c.set k (c.get k + 1)

def total (c : Counts) : Nat := c.eventFolder + c.assetFolder + c.bank + c.bus

def text (c : Counts) : String :=
  toString c.eventFolder ++ " event folders, " ++ toString c.assetFolder ++ " asset folders, " ++
    toString c.bank ++ " banks, " ++ toString c.bus ++ " buses"

end Counts

structure Staging where
  tables : ByKind (OrderedMap ObjectId PendingRecord) := .all ∅
  /-- Every pending id, whatever its kind. -/
  pending : OrderedMap ObjectId Unit := ∅
  /-- The paths that pending asset folders have taken. -/
  paths : OrderedMap AssetPath ObjectId := ∅

namespace Staging

/-- Why a record does not fit into a table. -/
inductive Misfit where
  | foreignClass (c : ObjectClass)
  | noOutput
  | noAssetPath
  deriving DecidableEq

def Misfit.message : Misfit → String
  | foreignClass c => "class " ++ c.name ++ " does not belong in this table"
  | noOutput => "a bus needs an output edge; the project already has a master bus"
  | noAssetPath => "missing or invalid assetPath"

inductive Error where
  | duplicateId (id : ObjectId)
  | duplicatePath (path : AssetPath) (existing : ObjectId)
  | invalidRecord (k : Kind) (id : ObjectId) (why : Misfit)
  /-- Records whose parents never came, and what was committed before. -/
  | unresolved (k : Kind) (ids : List ObjectId) (committed : Counts)
  | store (e : Store.Error)
  | journal (e : Journal.Error)
  deriving DecidableEq

namespace Error

open Text

def message : Error → String
  | duplicateId id => "id already in use: " ++ id.text
  | duplicatePath path existing =>
    "asset folder path already in use: " ++ path.display ++ " (by " ++ existing.text ++ ")"
  | invalidRecord k id why =>
    "invalid " ++ k.name ++ " record " ++ id.text ++ ": " ++ why.message
  | unresolved k ids committed =>
    toString ids.length ++ " " ++ k.name ++ " record(s) have unresolved parents: " ++
      joined ", " (ids.map (·.text)) ++ " (" ++ toString committed.total ++
      " committed before stopping)"
  | store e => e.message
  | journal e => e.message

/-- Whether an id or a path was in use already. -/
def isDuplicate : Error → Bool
  | duplicateId _ => true
  | duplicatePath _ _ => true
  | _ => false

end Error

/-! ## Looking -/

def table (g : Staging) (k : Kind) : OrderedMap ObjectId PendingRecord := g.tables.get k

def get? (g : Staging) (k : Kind) (id : ObjectId) : Option PendingRecord := (g.table k).get? id

def isPending (g : Staging) (id : ObjectId) : Bool := g.pending.contains id

/-- The pending ids of a kind in staging order. -/
def ids (g : Staging) (k : Kind) : List ObjectId := (g.table k).keys

/-- How many ids are pending. -/
def size (g : Staging) : Nat := g.pending.size

/-- What the index will hold of the pending records of a kind. -/
def entries (g : Staging) (k : Kind) : List IndexEntry :=
  (g.table k).values.filterMap fun r => IndexEntry.ofObject? k r.object

/-! ## Staging records -/

/-- The asset folder, committed or pending, that has a path. -/
def holder? (g : Staging) (s : Store) (p : AssetPath) : Option ObjectId :=
  match s.assetFolderAt? p with
  | some e => some e.id
  | none => g.paths.get? p

/-- The path that a record takes. Records of other kinds than asset folders take none. -/
def pathToTake (g : Staging) (s : Store) (k : Kind) (r : PendingRecord) :
    Except Error (Option AssetPath) :=
  if k = .assetFolder then
    match r.assetPath? with
    | none => .error (.invalidRecord k r.id .noAssetPath)
    | some p =>
      if p.isRoot then .error (.invalidRecord k r.id .noAssetPath)
      else
        match g.holder? s p with
        | some existing => .error (.duplicatePath p existing)
        | none => .ok (some p)
  else .ok none

/-- Keeps the path that a record takes, if it takes one. -/
def reserve (g : Staging) (r : PendingRecord) (path : Option AssetPath) : Staging :=
  { g with paths :=
      match path with
      | some p => g.paths.insert p r.id
      | none => g.paths }

/-- Notes the id of a record. -/
def list (g : Staging) (r : PendingRecord) : Staging :=
  { g with pending := g.pending.insert r.id () }

/-- Puts a record into the table of its kind. -/
def enter (g : Staging) (k : Kind) (r : PendingRecord) : Staging :=
  { g with tables := g.tables.set k ((g.table k).insert r.id r) }

/-- All that a staged record changes. -/
def add (g : Staging) (k : Kind) (r : PendingRecord) (path : Option AssetPath) : Staging :=
  ((g.reserve r path).list r).enter k r

/-- Stages a record. Whatever an attempt has changed when it fails stays changed. -/
def attempt (s : Store) (k : Kind) (r : PendingRecord) : Action Staging Error Unit := do
  if ¬ k.accepts r.object.objectClass then
    throw (.invalidRecord k r.id (.foreignClass r.object.objectClass))
  if k = .bus ∧ r.parent? k = none then throw (.invalidRecord k r.id .noOutput)
  if (← get).isPending r.id || s.containsAny r.id then throw (.duplicateId r.id)
  let path ← Action.reading fun g => g.pathToTake s k r
  modify fun g => g.reserve r path
  modify fun g => g.list r
  modify fun g => g.enter k r

/-- What is staged once a record is, or why the record was refused. -/
def stage (g : Staging) (s : Store) (k : Kind) (r : PendingRecord) : Except Error Staging :=
  match attempt s k r g with
  | .ok () g => .ok g
  | .error e _ => .error e

/-- Drops every record, and says how many there were. -/
def discardAll (g : Staging) : Nat × Staging := (g.size, {})

/-- Takes a record out, and sets the path free that it names. -/
def take (g : Staging) (k : Kind) (r : PendingRecord) : Staging where
  tables := g.tables.set k ((g.table k).erase r.id)
  pending := g.pending.erase r.id
  paths :=
    match r.assetPath? with
    | some p => g.paths.erase p
    | none => g.paths

end Staging

end AudioProject
