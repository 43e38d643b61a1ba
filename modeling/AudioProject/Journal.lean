import AudioProject.Instant
import AudioProject.ObjectId
import AudioProject.Path

/-
  Journals: what an operation has done so far, so that a later run can tell what a crash left
  behind. A step is recorded after the file that it names is there, and only files that the
  operation made are recorded.
-/

namespace AudioProject

namespace Journal

inductive Phase where
  | inProgress
  | committed
  /-- The operation failed, and its files are gone. -/
  | rolledBack
  /-- The operation stopped early, and what it did stays. -/
  | incomplete
  deriving DecidableEq, Repr

namespace Phase

def all : List Phase := [inProgress, committed, rolledBack, incomplete]

def name : Phase → String
  | inProgress => "in_progress"
  | committed => "committed"
  | rolledBack => "rolled_back"
  | incomplete => "incomplete"

def ofName? (s : String) : Option Phase := all.find? (·.name = s)

def isFinished (p : Phase) : Bool := p ≠ inProgress

end Phase

/-- What one step did. -/
inductive Deed where
  /-- A new document, and the class and the id of its first object. -/
  | objectWrite (className : String) (id : ObjectId) (path : Path)
  | mediaCopy (source dest : Path)
  /-- A mark between two parts of the operation. -/
  | checkpoint (name : String)
  deriving DecidableEq

namespace Deed

/-- The file that the step made. -/
def created? : Deed → Option Path
  | objectWrite _ _ path => some path
  | mediaCopy _ dest => some dest
  | checkpoint _ => none

def isObjectWrite : Deed → Bool
  | objectWrite _ _ _ => true
  | _ => false

end Deed

structure Step where
  deed : Deed
  time : Instant
  deriving DecidableEq

end Journal

structure Journal where
  /-- The name of the operation, which is that of the journal's file. -/
  operation : String
  command : String
  started : Instant
  finished? : Option Instant := none
  phase : Journal.Phase := .inProgress
  steps : List Journal.Step := []
  deriving DecidableEq

namespace Journal

def record (j : Journal) (d : Deed) (now : Instant) : Journal :=
  { j with steps := j.steps ++ [⟨d, now⟩] }

/-- The journal of an operation that has come to an end. -/
def finish (j : Journal) (p : Phase) (now : Instant) : Journal :=
  { j with phase := p, finished? := some now }

/-- The files that the operation made, the last one first. -/
def createdFiles (j : Journal) : List Path := j.steps.reverse.filterMap (·.deed.created?)

def objectWrites (j : Journal) : Nat := (j.steps.filter (·.deed.isObjectWrite)).length

end Journal

end AudioProject
