import AudioProject.Action
import AudioProject.Files.Error
import AudioProject.OrderedMap
import AudioProject.Path

/-
  A tree of directories and files, and what the file system does with it. A place in the tree is
  the list of names that lead to it from the top. A path is followed piece by piece: each piece
  needs a directory to start from, and only the last name may be missing. Here a file is written
  altogether or not at all. That a disk fills up, and a part of the file stays, does not happen.
-/

namespace AudioProject

abbrev Location := List String

/-- The instance of the core library, whatever else is imported. -/
instance decidableEqByteArray : DecidableEq ByteArray := ByteArray.instDecidableEq

inductive Node where
  | directory
  | file (content : ByteArray)
  deriving DecidableEq

structure FileTree where
  /-- What stands where, the top excepted, which is a directory. -/
  nodes : OrderedMap Location Node := ∅
  /-- The directory that relative paths start from. -/
  current : Location := []

namespace FileTree

def node? (t : FileTree) (l : Location) : Option Node :=
  if l = [] then some .directory else t.nodes.get? l

/-- The bytes of a file. -/
def contentAt? (t : FileTree) (l : Location) : Option ByteArray :=
  match t.node? l with
  | some (.file b) => some b
  | _ => none

def put (t : FileTree) (l : Location) (n : Node) : FileTree :=
  { t with nodes := t.nodes.insert l n }

def drop (t : FileTree) (l : Location) : FileTree := { t with nodes := t.nodes.erase l }

/-! ## Following paths -/

def maxNameBytes : Nat := 255

def maxPathBytes : Nat := 4095

/-- The place that one more piece leads to from the directory `here`. -/
def stepTo (t : FileTree) (here : Location) (piece : String) : Except FileError Location :=
  match t.node? here with
  | none => .error .notFound
  | some (.file _) => .error .notDirectory
  | some .directory =>
    if Path.isSilent piece then .ok here
    else if piece = ".." then .ok here.dropLast
    else if maxNameBytes < piece.utf8ByteSize then .error .nameTooLong
    else .ok (here ++ [piece])

/-- What no path can be. -/
def check (p : Path) : Except FileError Unit :=
  if p.text = "" then .error .notFound
  else if '\x00' ∈ p.text.toList then .error .nulInPath
  else if maxPathBytes < p.text.utf8ByteSize then .error .nameTooLong
  else .ok ()

def start (t : FileTree) (p : Path) : Location := if p.isAbsolute then [] else t.current

/-- The place that a path leads to. Nothing need stand there. -/
def locate (t : FileTree) (p : Path) : Except FileError Location := do
  check p
  p.pieces.foldlM t.stepTo (t.start p)

/-- What stands where a path leads to. -/
def find (t : FileTree) (p : Path) : Except FileError (Location × Node) := do
  let l ← t.locate p
  match t.node? l with
  | some n => .ok (l, n)
  | none => .error .notFound

/-! ## Looking -/

def has (t : FileTree) (p : Path) : Bool := (t.find p).isOk

def isFile (t : FileTree) (p : Path) : Bool :=
  match t.find p with
  | .ok (_, .file _) => true
  | _ => false

def read (t : FileTree) (p : Path) : Except FileError ByteArray :=
  match t.find p with
  | .ok (_, .file b) => .ok b
  | .ok (_, .directory) => .error .isDirectory
  | .error e => .error e

def readText (t : FileTree) (p : Path) : Except FileError String :=
  match t.read p with
  | .ok b =>
    match String.fromUTF8? b with
    | some s => .ok s
    | none => .error .notText
  | .error e => .error e

/-- The names in the directory `l`. -/
def namesIn (t : FileTree) (l : Location) : List String :=
  t.nodes.keys.filterMap fun k =>
    match k.getLast? with
    | some name => if k = l ++ [name] then some name else none
    | none => none

def list (t : FileTree) (p : Path) : Except FileError (List String) :=
  match t.find p with
  | .ok (l, .directory) => .ok (t.namesIn l)
  | .ok (_, .file _) => .error .notDirectory
  | .error e => .error e

/-! ## Changing -/

/-- Writes a file, which may be new. -/
def write (t : FileTree) (p : Path) (b : ByteArray) : Except FileError FileTree :=
  match t.locate p with
  | .error e => .error e
  | .ok l => if t.node? l = some .directory then .error .isDirectory else .ok (t.put l (.file b))

def removeFile (t : FileTree) (p : Path) : Except FileError FileTree :=
  match t.find p with
  | .ok (l, .file _) => .ok (t.drop l)
  | .ok (_, .directory) => .error .isDirectory
  | .error e => .error e

/-- Moves a file, over another one if need be. -/
def rename (t : FileTree) (source dest : Path) : Except FileError FileTree := do
  let b ← t.read source
  let t ← t.write dest b
  t.removeFile source

/-- Copies a file. Where there is nothing to read, or no file can stand, nothing has been made. -/
def copy (t : FileTree) (source dest : Path) : Except FileError FileTree :=
  match t.find source with
  | .ok (_, .file b) => t.write dest b
  | .ok (_, .directory) => .error .notRegular
  | .error e => .error e

/-- Goes on from `here` by a piece, making a directory where nothing stands. -/
def enter (here : Location) (piece : String) : Action FileTree FileError Location := fun t =>
  match t.stepTo here piece with
  | .error e => .error e t
  | .ok l =>
    match t.node? l with
    | none => .ok l (t.put l .directory)
    | some .directory => .ok l t
    | some (.file _) => .ok l t

def enterAll (here : Location) : List String → Action FileTree FileError Location
  | [] => pure here
  | p :: ps => do
    let l ← enter here p
    enterAll l ps

/-- Makes the directory of a path and those above it; those that are there stay. -/
def createDirs (p : Path) : Action FileTree FileError Unit := do
  if p.text = "" then return
  Action.reading fun _ => check p
  let t ← get
  let l ← enterAll (t.start p) p.pieces
  let t ← get
  if t.node? l = some .directory then return
  throw .alreadyExists

end FileTree

end AudioProject
