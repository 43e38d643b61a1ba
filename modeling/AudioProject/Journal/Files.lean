import AudioProject.Host
import AudioProject.Journal.Format
import AudioProject.Layout

/-
  Journals on disk, one file each. Every write can be made to fail beforehand, and a write that
  fails that way changes no file.
-/

namespace AudioProject.Journal

inductive Error where
  | file (e : FileError)
  /-- The file is there, but it holds no journal. -/
  | format
  | notFound (operation : String)
  deriving DecidableEq, Repr

def Error.message : Error → String
  | file e => "journal i/o error: " ++ e.message
  | format => "journal json error: the file holds no journal"
  | notFound operation => "journal not found: " ++ operation

/-! ## Looking -/

def read (t : FileTree) (l : Layout) (operation : String) : Except Error Journal :=
  let path := l.journal operation
  if t.has path then
    match t.readText path with
    | .error e => .error (.file e)
    | .ok s =>
      match ofText? s with
      | some j => .ok j
      | none => .error .format
  else .error (.notFound operation)

/-- The operation whose journal has this file name. -/
def operationOf? (fileName : String) : Option String :=
  let cs := fileName.toList
  let ending := ".json".toList
  if ending.isSuffixOf cs then some (String.ofList (cs.take (cs.length - ending.length)))
  else none

/-- The operations that have a journal, newest first. -/
def list (t : FileTree) (l : Layout) : Except Error (List String) :=
  if t.has l.journals then
    match t.list l.journals with
    | .ok names => .ok (names.filterMap operationOf?).reverse
    | .error e => .error (.file e)
  else .ok []

/-- The journals of operations that did not come to an end. Files without a journal are passed
over. -/
def unfinished (t : FileTree) (l : Layout) : Except Error (List Journal) :=
  (list t l).map fun ops => ops.filterMap fun op =>
    match read t l op with
    | .ok j => if j.phase.isFinished then none else some j
    | .error _ => none

/-! ## Writing -/

/-- Begins the journal of a command, which has no file yet. -/
def begin (h : Host) (command : String) : Journal × Host :=
  ({ operation := h.operationName h.operations, command := command, started := h.now },
   { h with operations := h.operations + 1 })

/-- Writes the journal over the one that is there, altogether or not at all (`FileTree.write`): a
write that fails leaves the journal as it was. -/
def save (l : Layout) (j : Journal) : Action Host Error Unit := do
  let h ← get
  set { h with faults := h.faults.count }
  if h.faults.strikes then throw (.file .simulated)
  Host.onFiles Error.file (FileTree.createDirs l.journals)
  Host.onFiles Error.file (Action.changing fun t => t.write (l.journal j.operation) j.text.toUTF8)

def delete (l : Layout) (j : Journal) : Action Host Error Unit := do
  let h ← get
  if h.files.has (l.journal j.operation) then
    Host.onFiles Error.file (Action.changing fun t => t.removeFile (l.journal j.operation))

/-- Leaves the last state of the journal on disk, or no file. A journal without steps has none to
begin with. -/
def close (l : Layout) (keep : Bool) (j : Journal) : Action Host Error Unit :=
  if j.steps.isEmpty then pure () else if keep then j.save l else j.delete l

end AudioProject.Journal
