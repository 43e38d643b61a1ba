import AudioProject.EventGraph.Copy
import AudioProject.EventGraph.Graft
import AudioProject.Journal.Files
import AudioProject.Store.Events
import AudioProject.Wave

/-
  Planning a new event from a template: everything is resolved and built in memory, and files
  are only read. Minting ids is the one thing that a plan does outside of itself.
-/

namespace AudioProject

/-- A media file and the asset folder that it goes to. -/
structure MediaSource where
  source : Path
  target : AssetPath
  deriving DecidableEq

namespace Instantiation

structure Request where
  template : ObjectId
  /-- The id of the new event; without one an id is minted. -/
  eventId? : Option ObjectId := none
  name : String
  folder : ObjectId
  bank : ObjectId
  bus : ObjectId
  media : List MediaSource := []
  deriving DecidableEq

/-- What a request names, where it is not there. -/
inductive Missing where
  | template (id : ObjectId)
  | folder (id : ObjectId)
  | bank (id : ObjectId)
  | bus (id : ObjectId)
  | assetFolder (path : AssetPath)
  deriving DecidableEq

def Missing.message : Missing → String
  | template id => "template event not found: " ++ id.text
  | folder id => "event folder not found: " ++ id.text
  | bank id => "bank not found: " ++ id.text
  | bus id => "bus not found: " ++ id.text
  | assetFolder path => "asset folder not found: " ++ path.text

inductive Error where
  | notFound (what : Missing)
  | duplicateId (id : ObjectId)
  /-- A media source without a file name. -/
  | invalidMedia (source : Path)
  | duplicateMedia (dest : Path)
  | mediaConflict (dest : Path)
  | mediaCopy (source dest : Path) (e : FileError)
  | store (e : Store.Error)
  | journal (e : Journal.Error)
  deriving DecidableEq

def Error.message : Error → String
  | notFound what => what.message
  | duplicateId id => "id already in use: " ++ id.text
  | invalidMedia source => "invalid media source: " ++ source.text
  | duplicateMedia dest => "more than one media source copies to " ++ dest.text
  | mediaConflict dest => dest.text ++ " already exists with different content"
  | mediaCopy source dest e =>
    "failed to copy " ++ source.text ++ " to " ++ dest.text ++ ": " ++ e.message
  | store e => e.message
  | journal e => e.message

/-- A media file and its place in the project. -/
structure PlannedCopy where
  source : Path
  dest : Path
  /-- Whether the same bytes are there already. -/
  reuse : Bool
  deriving DecidableEq

structure Plan where
  event : EventGraph
  /-- One for each media file, in order. -/
  audioFiles : List Object
  copies : List PlannedCopy
  /-- How many nodes of the template were copied. -/
  copied : Nat
  /-- How many of the copies the media made superfluous. -/
  pruned : Nat
  deriving DecidableEq

def Plan.eventId (p : Plan) : ObjectId := p.event.root

/-! ## Resolving a request -/

def mediaName (source : Path) : Except Error String :=
  match source.fileName? with
  | some name => .ok name
  | none => .error (.invalidMedia source)

def template (s : Store) (t : FileTree) (id : ObjectId) : Except Error EventGraph :=
  match s.loadEvent t id with
  | .ok g => .ok g
  | .error (.notFound _ _) => .error (.notFound (.template id))
  | .error e => .error (.store e)

/-- Only banks will do, not bank folders. -/
def isBank (s : Store) (id : ObjectId) : Bool :=
  match s.lookup? .bank id with
  | some e => e.objectClass = .bank
  | none => false

def checkMedia (s : Store) (m : MediaSource) : Except Error Unit :=
  if m.target.isRoot || (s.assetFolderAt? m.target).isSome then
    (mediaName m.source).map fun _ => ()
  else .error (.notFound (.assetFolder m.target))

/-- Whether an object or an event has the id. -/
def isTaken (s : Store) (t : FileTree) (id : ObjectId) : Bool := s.hasEvent t id || s.containsAny id

/-- The template of a request that resolves. -/
def resolve (s : Store) (t : FileTree) (r : Request) : Except Error EventGraph := do
  let g ← template s t r.template
  if !s.contains .eventFolder r.folder then throw (.notFound (.folder r.folder))
  if !isBank s r.bank then throw (.notFound (.bank r.bank))
  if !s.contains .bus r.bus then throw (.notFound (.bus r.bus))
  r.media.forM (checkMedia s)
  match r.eventId? with
  | some id => if isTaken s t id then throw (.duplicateId id)
  | none => pure ()
  return g

/-! ## Media -/

/-- Whether two files hold the same bytes. -/
def sameContents (t : FileTree) (source dest : Path) : Except Error Bool := do
  let a ← (t.read source).mapError (Error.mediaCopy source dest)
  let b ← (t.read dest).mapError (Error.mediaCopy source dest)
  return decide (a = b)

/-- What a media file says of itself, if it can be read. -/
def probe? (t : FileTree) (source : Path) : Option MediaInfo :=
  match t.read source with
  | .error _ => none
  | .ok b =>
    match Wave.probe b.toList with
    | .ok info => some info
    | .error _ => none

/-- Where a media file goes. `earlier` are the places of those before it. -/
def planCopy (s : Store) (t : FileTree) (earlier : List Path) (m : MediaSource) :
    Except Error PlannedCopy := do
  let name ← mediaName m.source
  let dest := (s.layout.assetDir m.target).join name
  if dest ∈ earlier then throw (.duplicateMedia dest)
  let reuse := t.has dest
  if reuse then
    if !(← sameContents t m.source dest) then throw (.mediaConflict dest)
  return ⟨m.source, dest, reuse⟩

def planCopies (s : Store) (t : FileTree) (earlier : List Path) :
    List MediaSource → Except Error (List PlannedCopy)
  | [] => .ok []
  | m :: ms => do
    let c ← planCopy s t earlier m
    let cs ← planCopies s t (c.dest :: earlier) ms
    return c :: cs

def prepare (t : FileTree) (probing : Bool) (m : MediaSource) : PreparedMedia where
  assetPath := m.target.joinFile (m.source.fileName?.getD "")
  info := if probing then probe? t m.source else none

/-! ## The plan -/

/-- The id of the new event. -/
def eventId (r : Request) (ids : IdSupply) : ObjectId × IdSupply :=
  match r.eventId? with
  | some id => (id, ids)
  | none => ids.mint

def overrides (r : Request) : Overrides := ⟨r.name, r.folder, r.bank, r.bus⟩

/-- The event of a copied template, with its media. -/
def assemble (s : Store) (r : Request) (copy : EventGraph) (copied : Nat)
    (copies : List PlannedCopy) (media : List PreparedMedia) (ids : IdSupply) :
    Plan × IdSupply :=
  let (g, audioFiles, ids) := (copy.override (overrides r)).1.graft media ids s.masters.assetFolder
  let (g, pruned) := if media.isEmpty then (g, 0) else g.prune
  (⟨g, audioFiles, copies, copied, pruned⟩, ids)

/-- Builds a new event in memory. -/
def plan (s : Store) (t : FileTree) (probing : Bool) (r : Request) : Action IdSupply Error Plan :=
  fun ids =>
    match resolve s t r with
    | .error e => .error e ids
    | .ok g =>
      let (id, ids) := eventId r ids
      let (copy, names, ids) := g.copy id ids
      match planCopies s t [] r.media with
      | .error e => .error e ids
      | .ok copies =>
        let (p, ids) := assemble s r copy names.size copies (r.media.map (prepare t probing)) ids
        .ok p ids

end Instantiation

end AudioProject
