import AudioProject.Instantiation
import AudioProject.Store.Writing

/-
  Carrying out a plan: media first, then the documents of the audio files, and the event last.
  Each file that is made is noted at once, so that after a failure all of them can be removed;
  media that was there before is never noted.
-/

namespace AudioProject.Instantiation

/-- An instantiation under way. -/
structure Run where
  host : Host
  journal : Journal
  /-- The files made so far, the last one first. -/
  created : List Path := []

namespace Run

variable {ε α : Type}

def onHost (wrap : ε → Error) (x : Action Host ε α) : Action Run Error α :=
  Action.within host (fun c h => { c with host := h }) wrap x

/-- Journals a step. -/
def append (l : Layout) (d : Journal.Deed) : Action Run Error Unit := do
  modify fun c => { c with journal := c.journal.record d c.host.now }
  let c ← get
  onHost Error.journal (c.journal.save l)

def note (path : Path) : Action Run Error Unit :=
  modify fun c => { c with created := path :: c.created }

end Run

/-- Copies a file, making directories as needed. What a failed copy left goes; a disk that fills up
would leave a part of the file, but a copy that fails in this tree leaves nothing
(`FileTree.copy`). -/
def copyFile (source dest : Path) : Action FileTree FileError Unit := do
  match dest.parent? with
  | some dir => FileTree.createDirs dir
  | none => pure ()
  match ← Action.outcome (Action.changing fun t => t.copy source dest) with
  | .ok () => return
  | .error e =>
    let _ ← Action.outcome (ε := FileError) (Action.changing fun t => t.removeFile dest)
    throw e

def copyMedia (l : Layout) (c : PlannedCopy) : Action Run Error Unit := do
  if c.reuse then return
  if (← get).host.files.has c.dest then throw (.mediaConflict c.dest)
  Run.onHost id (Host.onFiles (Error.mediaCopy c.source c.dest) (copyFile c.source c.dest))
  Run.note c.dest
  Run.append l (.mediaCopy c.source c.dest)

/-- Writes the document of `os`; `primary` is the first of them, which the journal names. -/
def writeObjects (s : Store) (c : ObjectClass) (id : ObjectId) (os : List Object) :
    Action Run Error Unit := do
  let path ← Run.onHost Error.store (Host.onFiles (fun e => e) (s.writeDocument os))
  Run.note path
  Run.append s.layout (.objectWrite c.name id path)

def execute (s : Store) (p : Plan) : Action Run Error Unit := do
  p.copies.forM (copyMedia s.layout)
  Run.append s.layout (.checkpoint "media")
  p.audioFiles.forM fun o => writeObjects s o.objectClass o.id [o]
  writeObjects s .event p.eventId p.event.objects

/-- Removes files, as far as that can be done. -/
def removeAll : List Path → FileTree → FileTree
  | [], t => t
  | p :: ps, t =>
    match Store.removeDocument p t with
    | .ok () t => removeAll ps t
    | .error _ t => removeAll ps t

/-- Undoes a run, and leaves a journal of it if journals are kept. -/
def rollBack (s : Store) (c : Run) : Host :=
  let host := { c.host with files := removeAll c.created c.host.files }
  let j := c.journal.finish .rolledBack host.now
  let record := if s.keepJournals then j.save s.layout else j.delete s.layout
  match record host with
  | .ok () h => h
  | .error _ h => h

/-- The host after the journal of a run that went well is closed, as far as that can be done. -/
def conclude (s : Store) (c : Run) : Host :=
  match (c.journal.finish .committed c.host.now).close s.layout s.keepJournals c.host with
  | .ok () h => h
  | .error _ h => h

/-- Makes a new event, and gives its id. -/
def instantiate (s : Store) (probing : Bool) (r : Request) : Action Host Error ObjectId :=
  fun h =>
    match Host.onIds id (plan s h.files probing r) h with
    | .error e h => .error e h
    | .ok p h =>
      let (journal, h) := Journal.begin h "instantiate"
      match execute s p { host := h, journal := journal } with
      | .ok () c => .ok p.eventId (conclude s c)
      | .error e c => .error e (rollBack s c)

end AudioProject.Instantiation
