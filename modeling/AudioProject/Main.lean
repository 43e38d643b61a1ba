import AudioProject.Command.Sources
import AudioProject.Command.Tasks
import AudioProject.Files.Changes
import Std.Time.DateTime.Timestamp

/-
  The program: it brings in the files that a command line may read, runs the command on them, puts
  out its texts, and writes down what became of the files.
-/

namespace AudioProject.Program

open Command

def fileName (l : Location) : String := "/" ++ Text.joined "/" l

/-! ## Bringing files in -/

/-- Brings in what stands at a place, with all that is below it if `deep` holds. Links to
directories are not followed. -/
partial def bring (deep : Bool) (t : FileTree) (l : Location) : IO FileTree := do
  let file := (← IO.currentDir) / fileName l
  if ← file.isDir then
    let t := t.lay l .directory
    if !deep then return t
    (← file.readDir).foldlM (fun t e => do
      let link := (← e.path.symlinkMetadata).type == .symlink
      if link && (← e.path.isDir) then return t
      bring deep t (l ++ [e.fileName])) t
  else if ← file.pathExists then return t.lay l (.file (← IO.FS.readBinFile file))
  else return t

/-- Brings in the directories on a path, and what stands at its end. -/
def follow (deep : Bool) (t : FileTree) (p : Path) : IO FileTree := do
  let (t, place) ← p.pieces.foldlM (fun (t, here) piece => do
    let t ← bring false t here
    return (t, if Path.isSilent piece then here
      else if piece = ".." then here.dropLast else here ++ [piece])) (t, t.start p)
  bring deep t place

def followAll (deep : Bool) (t : FileTree) (ps : List Path) : IO FileTree :=
  ps.foldlM (follow deep) t

/-- The files for a command line. -/
def files (env : Environment) (words : List String) : IO FileTree := do
  let current := (Path.mk (← IO.currentDir).toString).names
  let t ← bring false { current := current } current
  match Invocation.ofWords words with
  | .error _ => return t
  | .ok v =>
    let root := v.project?.getD (currentDir t)
    let t ← followAll false t (Config.userPaths env ++ v.task.sources)
    let t ← followAll false t (v.task.planSources t)
    let l : Layout := { root := root }
    let t ← followAll true t [l.metadata, l.toolDir]
    match Config.load t env (some root) with
    | .error _ => return t
    | .ok config => follow true t (config.layout root).assetsRoot

/-! ## Writing down -/

def writeDown (old new : FileTree) : IO Unit := do
  for (l, n) in new.nodes.toList do
    if n = .directory ∧ old.node? l = none then IO.FS.createDirAll (fileName l)
  for c in Snapshot.changes (old.filesBelow []) (new.filesBelow []) do
    match c with
    | .added l b | .modified l b => IO.FS.writeBinFile (fileName l) b
    | .removed l => IO.FS.removeFile (fileName l)

/-! ## Running -/

/-- A number of 128 random bits. -/
def randomNumber : IO Nat := do
  return (← IO.getRandomBytes 16).foldl (fun n b => 256 * n + b.toNat) 0

def now : IO Instant := do
  let t ← Std.Time.Timestamp.now
  let n := t.toNanosecondsSinceUnixEpoch.toInt
  return ⟨n / 1000000000, (n % 1000000000).toNat⟩

/-- The host for a command line. Names of operations are ids without their braces. -/
def host (env : Environment) (words : List String) : IO Host := do
  let operations ← randomNumber
  return {
    files := ← files env words
    ids := .ofStart (← randomNumber)
    operationName := fun k => String.ofList (ObjectId.version4 (operations + k))
    now := ← now }

def usage : String :=
  "Usage: ef [--project <DIR>] [--quiet] [--debug] <COMMAND>\n\n" ++
  "Commands:\n" ++
  "  info                     what is in the project\n" ++
  "  tree [--kind <KIND>]     the folders, banks and buses\n" ++
  "  events <FOLDER>          the events in a folder\n" ++
  "  instantiate --template <ID> --name <NAME> --folder <ID> --bank <ID> --bus <ID>\n" ++
  "    [--media <SOURCE=TARGET>]... [--event-id <ID>] [--dry-run]\n" ++
  "  apply <PLAN> [--dry-run]\n"

def environment : IO Environment :=
  return ⟨← IO.getEnv "EVENTFORGE_CONFIG", ← IO.getEnv "XDG_CONFIG_HOME", ← IO.getEnv "HOME"⟩

/-- The lock files that other processes hold. Holding the handle keeps the lock. -/
def heldLocks (h : Host) (v : Invocation) : IO (List Location × Option IO.FS.Handle) := do
  let l : Layout := { root := v.project?.getD (currentDir h.files) }
  match h.files.find l.lock with
  | .error _ => return ([], none)
  | .ok (place, _) =>
    let handle ← IO.FS.Handle.mk (fileName place) .append
    if ← handle.tryLock then return ([], some handle) else return ([place], none)

def run (words : List String) : IO UInt32 := do
  let env ← environment
  let h ← host env words
  let (locks, handle?) ← match Invocation.ofWords words with
    | .ok v => heldLocks h v
    | .error _ => pure ([], none)
  let (ending, c) := Command.run env words { h with locks := locks }
  writeDown h.files c.host.files
  if let some handle := handle? then handle.unlock
  match ending with
  | .stopped .help => IO.print usage
  | .stopped .usage => IO.eprint usage
  | _ =>
    IO.print c.out
    IO.eprint c.err
  return ending.code.toUInt32

end AudioProject.Program

def main (words : List String) : IO UInt32 := AudioProject.Program.run words
