import AudioProject.Batch.Plan
import AudioProject.MediaArgument
import AudioProject.Staging

/-
  What a batch plan asks for: records to stage and events to make. Every key gets a new id before
  anything is built, so that an entry may refer to keys that come later.
-/

namespace AudioProject.Batch

inductive Error where
  | duplicateKey (key : String)
  /-- A reference that is no key and no id. -/
  | badReference (reference : String) (e : ValueError)
  | stage (k : Kind) (id : ObjectId) (e : Staging.Error)
  | badMedia (event : String) (e : MediaArgument.Error)
  deriving DecidableEq

/-- The ids of the keys. -/
abbrev Keys := OrderedMap String ObjectId

def minting {ε α : Type} (f : IdSupply → α × IdSupply) : Action IdSupply ε α := fun ids =>
  let (a, ids) := f ids
  .ok a ids

/-- New ids for keys, each of which comes once. -/
def mintKeys (keys : Keys) : List String → Action IdSupply Error Keys
  | [] => return keys
  | k :: ks => do
    let id ← minting IdSupply.mint
    if keys.contains k then throw (.duplicateKey k)
    mintKeys (keys.insert k id) ks

/-- The id that a reference stands for. Keys come before ids. -/
def resolve (keys : Keys) (reference : String) : Except Error ObjectId :=
  match keys.get? reference with
  | some id => .ok id
  | none => (ObjectId.ofString? reference).mapError (Error.badReference reference)

def resolveOr (keys : Keys) (top : ObjectId) (reference? : Option String) :
    Except Error ObjectId :=
  match reference? with
  | some reference => resolve keys reference
  | none => .ok top

/-- A record under the id of its key, if it has one. -/
def keyed (keys : Keys) (key? : Option String) (r : PendingRecord) : PendingRecord :=
  match key?.bind keys.get? with
  | some id => r.withId id
  | none => r

/-- The record of an entry. Without a reference it goes below `top`. -/
def nodeRecord (keys : Keys)
    (build : String → ObjectId → IdSupply → PendingRecord × IdSupply) (top : ObjectId)
    (e : NodeEntry) : Action IdSupply Error PendingRecord := do
  let above ← Action.reading fun _ => resolveOr keys top e.above?
  let r ← minting (build e.name above)
  return keyed keys e.key? r

def pathRecord (keys : Keys) (e : PathEntry) : Action IdSupply Error PendingRecord := do
  let r ← minting (PendingRecord.assetFolder e.path)
  return keyed keys e.key? r

/-- The records of a plan, in the order in which they are staged. -/
def records (p : Plan) (keys : Keys) (s : Store) :
    Action IdSupply Error (List (Kind × PendingRecord)) := do
  let eventFolders ←
    p.eventFolders.mapM (nodeRecord keys PendingRecord.eventFolder s.masters.eventFolder)
  let bankFolders ←
    p.bankFolders.mapM (nodeRecord keys PendingRecord.bankFolder s.masters.bankFolder)
  let banks ← p.banks.mapM (nodeRecord keys PendingRecord.bank s.masters.bankFolder)
  let buses ← p.buses.mapM (nodeRecord keys PendingRecord.bus s.masterBus)
  let assetFolders ← p.assetFolders.mapM (pathRecord keys)
  return eventFolders.map (Kind.eventFolder, ·) ++ bankFolders.map (Kind.bank, ·) ++
    banks.map (Kind.bank, ·) ++ buses.map (Kind.bus, ·) ++
    assetFolders.map (Kind.assetFolder, ·)

def stageAll (s : Store) (g : Staging) : List (Kind × PendingRecord) → Except Error Staging
  | [] => .ok g
  | (k, r) :: rs =>
    match g.stage s k r with
    | .ok g => stageAll s g rs
    | .error e => .error (.stage k r.id e)

/-- Stages the records of a plan. -/
def stagePlan (p : Plan) (keys : Keys) (s : Store) : Action IdSupply Error Staging := do
  let rs ← records p keys s
  Action.reading fun _ => stageAll s {} rs

/-! ## Events -/

/-- Media with a source that starts from the directory of the plan. -/
def media (dir : Path) (event text : String) : Except Error MediaSource :=
  match MediaArgument.ofString? text with
  | .ok m => .ok { m with source := dir.join m.source.text }
  | .error e => .error (.badMedia event e)

def request (keys : Keys) (dir : Path) (e : EventEntry) : Except Error Instantiation.Request := do
  let template ← resolve keys e.template
  let folder ← resolve keys e.folder
  let bank ← resolve keys e.bank
  let bus ← resolve keys e.bus
  let media ← e.media.mapM (media dir e.name)
  return ⟨template, e.key?.bind keys.get?, e.name, folder, bank, bus, media⟩

/-- The requests for the events of a plan that stands in `dir`. -/
def requests (p : Plan) (keys : Keys) (dir : Path) :
    Except Error (List Instantiation.Request) :=
  p.events.mapM (request keys dir)

end AudioProject.Batch
