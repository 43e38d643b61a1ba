import AudioProject.ByKind
import AudioProject.Document.Reading
import AudioProject.Files.Tree
import AudioProject.KindIndex
import AudioProject.Layout
import AudioProject.Store.Error

/-
  A project that has been read: its masters and an index for each kind. Events are not indexed;
  they are read when they are asked for.
-/

namespace AudioProject

/-- The workspace, and the master folders that it points to. -/
structure Masters where
  workspace : ObjectId
  eventFolder : ObjectId
  bankFolder : ObjectId
  assetFolder : ObjectId
  deriving DecidableEq

structure Store where
  layout : Layout
  /-- The version tag of every new document. -/
  model : Model
  masters : Masters
  /-- The only bus without output. -/
  masterBus : ObjectId
  indices : ByKind KindIndex
  keepJournals : Bool

namespace Store

/-! ## Reading a project -/

def readDocument (t : FileTree) (path : Path) : Except Error Document := do
  let text ← (t.readText path).mapError (Error.file path)
  (Document.parse text).mapError (Error.parse path)

def readRequired (t : FileTree) (path : Path) : Except Error Document :=
  if t.has path then readDocument t path else .error (.missingFile path)

/-- The documents in a directory, by file name; none if the directory is missing. -/
def documentsIn (t : FileTree) (dir : Path) : Except Error (List (Path × Document)) :=
  match t.list dir with
  | .error .notFound => .ok []
  | .error e => .error (.file dir e)
  | .ok names =>
    let paths := (names.mergeSort (· ≤ ·)).map dir.join
    let documents := paths.filter fun p => t.isFile p && p.extension? = some "xml"
    documents.mapM fun p => (readDocument t p).map fun d => (p, d)

/-- The first destination of an edge of the workspace. -/
def pointer (o : Object) (label : String) : Except Error ObjectId :=
  match o.singleEdge? label with
  | some id => .ok id
  | none => .error (.invalid (.missingPointer label))

def mastersOf (workspace : Document) : Except Error Masters :=
  match workspace.firstOf? .workspace with
  | none => .error (.invalid .noWorkspace)
  | some o => do
    return ⟨o.id, ← pointer o "masterEventFolder", ← pointer o "masterBankFolder",
      ← pointer o "masterAssetFolder"⟩

/-- The index of a kind: the objects of a first document, and those in the kind's directories. -/
def indexKind (t : FileTree) (l : Layout) (first : Document) (k : Kind) :
    Except Error KindIndex := do
  let found ← k.directories.mapM fun dir => documentsIn t (l.documentDir dir)
  return (KindIndex.empty k).insertObjects
    (first.objects ++ found.flatten.flatMap fun e => e.2.objects)

def masterBusOf (buses : KindIndex) : Except Error ObjectId :=
  match buses.roots.map IndexEntry.id with
  | [id] => .ok id
  | [] => .error (.invalid .noMasterBus)
  | ids => .error (.invalid (.masterBuses ids))

/-- Refuses a master that no folder index holds. -/
def checkMaster (x : ByKind KindIndex) (what : String) (id : ObjectId) : Except Error Unit :=
  if x.eventFolder.contains id || x.bank.contains id || x.assetFolder.contains id then .ok ()
  else .error (.invalid (.undefinedMaster what id))

def load (t : FileTree) (l : Layout) (keepJournals : Bool) : Except Error Store := do
  let workspace ← readRequired t l.workspace
  let masters ← mastersOf workspace
  let master ← readRequired t l.masterBus
  let indices : ByKind KindIndex :=
    ⟨← indexKind t l workspace .eventFolder, ← indexKind t l workspace .assetFolder,
     ← indexKind t l workspace .bank, ← indexKind t l master .bus⟩
  let masterBus ← masterBusOf indices.bus
  checkMaster indices "master event folder" masters.eventFolder
  checkMaster indices "master bank folder" masters.bankFolder
  checkMaster indices "master asset folder" masters.assetFolder
  return ⟨l, workspace.model, masters, masterBus, indices, keepJournals⟩

/-! ## Looking -/

def index (s : Store) (k : Kind) : KindIndex := s.indices.get k

/-- The object at the top of a kind. -/
def root (s : Store) : Kind → ObjectId
  | .eventFolder => s.masters.eventFolder
  | .assetFolder => s.masters.assetFolder
  | .bank => s.masters.bankFolder
  | .bus => s.masterBus

def contains (s : Store) (k : Kind) (id : ObjectId) : Bool := (s.index k).contains id

/-- Whether an object of any kind has the id. -/
def containsAny (s : Store) (id : ObjectId) : Bool := Kind.all.any fun k => s.contains k id

def lookup? (s : Store) (k : Kind) (id : ObjectId) : Option IndexEntry := (s.index k).get? id

def resolve (s : Store) (k : Kind) (id : ObjectId) : Except Error IndexEntry :=
  match s.lookup? k id with
  | some e => .ok e
  | none => .error (.notFound k.label id)

def entries (s : Store) (k : Kind) : List IndexEntry := (s.index k).list

/-- The entries of a kind with pending ones, which take the place of their id or come last. -/
def entriesWith (s : Store) (k : Kind) (pending : List IndexEntry) : List IndexEntry :=
  (OrderedMap.ofList ((s.entries k ++ pending).map fun e => (e.id, e))).values

def children (s : Store) (k : Kind) (id : ObjectId) : List IndexEntry :=
  ((s.index k).tree.children id).filterMap (s.index k).get?

def ancestors (s : Store) (k : Kind) (id : ObjectId) : List ObjectId :=
  (s.index k).tree.ancestors id

def isDescendant (s : Store) (k : Kind) (id ancestor : ObjectId) : Bool :=
  (s.index k).tree.isDescendant id ancestor

def assetFolderAt? (s : Store) (p : AssetPath) : Option IndexEntry :=
  (s.index .assetFolder).byPath? p

/-- The asset folders above a path, nearest first. Levels without a folder are passed over. -/
def assetAncestors (s : Store) (p : AssetPath) : List IndexEntry :=
  p.parents.filterMap s.assetFolderAt?

/-- The text that asset folders are sorted by. -/
def pathText (e : IndexEntry) : String := (e.assetPath?.map AssetPath.text).getD ""

/-- The asset folders below a path, by path. -/
def assetDescendants (s : Store) (p : AssetPath) : List IndexEntry :=
  let below := (s.entries .assetFolder).filter fun e =>
    match e.assetPath? with
    | some q => p.isAncestorOf q
    | none => false
  below.mergeSort fun a b => pathText a ≤ pathText b

end Store

end AudioProject
