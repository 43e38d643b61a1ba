import AudioProject.Host
import AudioProject.Layout

/-
  The lock of a project: whoever writes to a project holds its lock file meanwhile. The file
  stays when the lock is given back.
-/

namespace AudioProject

namespace Lock

inductive Error where
  | held
  | noDirectory (dir : Path) (e : FileError)
  | noFile (path : Path) (e : FileError)
  deriving DecidableEq, Repr

def Error.message : Error → String
  | held => "project is locked by another eventforge process"
  | noDirectory dir e => "failed to create lock: cannot create " ++ dir.text ++ ": " ++ e.message
  | noFile path e => "failed to create lock: cannot open " ++ path.text ++ ": " ++ e.message

/-- The place of the lock file, which is made if nothing stands there. -/
def openFile (path : Path) : Action FileTree FileError Location := fun t =>
  match t.locate path with
  | .error e => .error e t
  | .ok l =>
    match t.node? l with
    | some .directory => .error .isDirectory t
    | some (.file _) => .ok l t
    | none => .ok l (t.put l (.file ByteArray.empty))

/-- Takes the lock, unless somebody holds it. -/
def acquire (l : Layout) : Action Host Error Location := do
  Host.onFiles (Error.noDirectory l.toolDir) (FileTree.createDirs l.toolDir)
  let place ← Host.onFiles (Error.noFile l.lock) (openFile l.lock)
  let h ← get
  if place ∈ h.locks then throw .held
  set { h with locks := place :: h.locks }
  return place

def release (place : Location) (h : Host) : Host := { h with locks := h.locks.erase place }

end Lock

end AudioProject
