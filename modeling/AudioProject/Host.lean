import AudioProject.Files.Tree
import AudioProject.Instant
import AudioProject.ObjectId

/-
  What a run works in: the files, the supply of ids, the clock, the locks that are held, and the
  failures that were asked for beforehand.
-/

namespace AudioProject

/-- Failures of journal writes: from the write `threshold` on every one fails, and at zero none. -/
structure Faults where
  threshold : Nat := 0
  /-- The writes so far, failed ones included. -/
  attempts : Nat := 0
  deriving DecidableEq, Repr

namespace Faults

/-- Lets the `n`-th write from now on fail, and every later one. -/
def after (n : Nat) : Faults := ⟨n, 0⟩

/-- Whether one more write fails. -/
def strikes (f : Faults) : Bool := f.threshold ≠ 0 && f.threshold ≤ f.attempts + 1

def count (f : Faults) : Faults :=
  if f.threshold = 0 then f else { f with attempts := f.attempts + 1 }

end Faults

structure Host where
  files : FileTree := {}
  ids : IdSupply
  /-- The names of operations, and how many have begun. -/
  operationName : Nat → String
  operations : Nat := 0
  now : Instant
  faults : Faults := {}
  /-- Where the lock files are that somebody holds. -/
  locks : List Location := []

namespace Host

variable {ε ε' α : Type}

/-- An action on the files alone. -/
def onFiles (wrap : ε → ε') (x : Action FileTree ε α) : Action Host ε' α :=
  Action.within files (fun h t => { h with files := t }) wrap x

/-- An action on the supply of ids alone. -/
def onIds (wrap : ε → ε') (x : Action IdSupply ε α) : Action Host ε' α :=
  Action.within ids (fun h s => { h with ids := s }) wrap x

/-- What the files say. -/
def lookUp (wrap : ε → ε') (f : FileTree → Except ε α) : Action Host ε' α :=
  Action.reading fun h => (f h.files).mapError wrap

end Host

end AudioProject
