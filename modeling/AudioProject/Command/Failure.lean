import AudioProject.Batch.Records
import AudioProject.Config
import AudioProject.Instantiation
import AudioProject.Lock

/-
  Why a command did not do what it was asked for, as a chain of texts from the outermost cause
  inwards. An error that wraps another one is followed by it.
-/

namespace AudioProject

/-- What stands behind a fault in markup, apart from its own text. -/
def Markup.Fault.causes : Markup.Fault → List String
  | .badAttribute e => [e.message]
  | .badReference e => [e.message]
  | _ => []

def Document.Error.causes : Document.Error → List String
  | .markup e => e.message :: e.causes
  | .malformed _ _ => []
  | .invalidValue e => [e.message]

def Store.Error.causes : Store.Error → List String
  | .parse _ e => e.message :: e.causes
  | .file _ e => [e.message]
  | _ => []

def Journal.Error.causes : Journal.Error → List String
  | .file e => [e.message]
  | .format => [Config.diagnostic]
  | .notFound _ => []

def Config.Error.causes : Config.Error → List String
  | .read _ e => [e.message]
  | _ => []

def Staging.Error.causes : Staging.Error → List String
  | .store e => e.causes
  | .journal e => e.causes
  | _ => []

def Instantiation.Error.causes : Instantiation.Error → List String
  | .mediaCopy _ _ e => [e.message]
  | .store e => e.causes
  | .journal e => e.causes
  | _ => []

def Batch.Error.chain : Batch.Error → List String
  | .duplicateKey key => ["Plan key '" ++ key ++ "' is defined more than once"]
  | .badReference reference e =>
    ["'" ++ reference ++ "' is neither a plan key nor an object id", e.message]
  | .stage k id e =>
    ("Failed to stage " ++ k.name ++ " " ++ id.text) :: e.message :: e.causes
  | .badMedia event e => ["Invalid media for event '" ++ event ++ "'", e.message]

namespace Command

inductive Failure where
  | configuration (e : Config.Error)
  | noProject (workspace : Path)
  | lock (e : Lock.Error)
  | openProject (root : Path) (e : Store.Error)
  | journals (e : Journal.Error)
  | listEvents (folder : ObjectId) (e : Store.Error)
  | planEvent (name : String) (e : Instantiation.Error)
  | makeEvent (name : String) (e : Instantiation.Error)
  | readPlan (plan : Path) (e : FileError)
  | parsePlan (plan : Path)
  | batch (e : Batch.Error)
  | commit (e : Staging.Error)
  /-- An event of a batch, after `made` of `total` events. -/
  | makeEventOf (name : String) (made total : Nat) (e : Instantiation.Error)
  deriving DecidableEq

namespace Failure

def quoted (s : String) : String := "'" ++ s ++ "'"

/-- The texts from the outermost cause inwards. -/
def chain : Failure → List String
  | configuration e => "Failed to load configuration" :: e.message :: e.causes
  | noProject workspace => ["Not a project: " ++ workspace.text ++ " does not exist"]
  | lock e => ["Failed to lock project", e.message]
  | openProject root e => ("Failed to open project at " ++ root.text) :: e.message :: e.causes
  | journals e => "Failed to read operation journals" :: e.message :: e.causes
  | listEvents folder e => ("Failed to list events in " ++ folder.text) :: e.message :: e.causes
  | planEvent name e => ("Cannot instantiate " ++ quoted name) :: e.message :: e.causes
  | makeEvent name e => ("Failed to instantiate " ++ quoted name) :: e.message :: e.causes
  | readPlan plan e => ["Failed to read plan " ++ plan.text, e.message]
  | parsePlan plan => ["Invalid plan " ++ plan.text, "Invalid plan", Config.diagnostic]
  | batch e => e.chain
  | commit e => "Failed to commit staged records" :: e.message :: e.causes
  | makeEventOf name made total e =>
    ("Failed to instantiate " ++ quoted name ++ " (" ++ toString made ++ " of " ++
      toString total ++ " events created)") :: e.message :: e.causes

open Text in
/-- The chain as a user reads it. -/
def report (f : Failure) : String := "error: " ++ joined "\n  caused by: " f.chain ++ "\n"

end Failure

end Command

end AudioProject
