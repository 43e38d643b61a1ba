import AudioProject.Journal.Files

/-
  A journal with the host that it is kept on, and all that can be done with it.
-/

namespace AudioProject

structure Logbook where
  host : Host
  journal : Journal

namespace Logbook

inductive Operation where
  /-- Records a step and writes the journal. -/
  | append (d : Journal.Deed)
  /-- Marks the operation as ended, in memory alone. -/
  | finish (p : Journal.Phase)
  /-- Marks the operation as ended, and keeps or deletes the file. -/
  | close (p : Journal.Phase) (keep : Bool)
  | save
  | delete
  /-- Lets the `n`-th write from now on fail, and every later one. -/
  | failAfter (n : Nat)
  deriving DecidableEq

/-- An action on the host that depends on the journal. -/
def onHost {ε : Type} (f : Journal → Action Host ε Unit) : Action Logbook ε Unit := fun b =>
  match f b.journal b.host with
  | .ok () h => .ok () { b with host := h }
  | .error e h => .error e { b with host := h }

def update (f : Journal → Instant → Journal) (b : Logbook) : Logbook :=
  { b with journal := f b.journal b.host.now }

def perform (l : Layout) : Operation → Action Logbook Journal.Error Unit
  | .append d => do
    modify (update fun j now => j.record d now)
    onHost fun j => j.save l
  | .finish p => modify (update fun j now => j.finish p now)
  | .close p keep => do
    modify (update fun j now => j.finish p now)
    onHost fun j => j.close l keep
  | .save => onHost fun j => j.save l
  | .delete => onHost fun j => j.delete l
  | .failAfter n => modify fun b => { b with host := { b.host with faults := .after n } }

end Logbook

end AudioProject
