import AudioProject.Files.Tree

/-
  What happened to the files below a place: which are new, which have other bytes, and which are
  gone. Directories do not count.
-/

namespace AudioProject

/-- Files with their places below some directory. -/
abbrev Snapshot := List (Location × ByteArray)

inductive Change where
  | added (place : Location) (content : ByteArray)
  | modified (place : Location) (content : ByteArray)
  | removed (place : Location)
  deriving DecidableEq

namespace FileTree

/-- The files below a place. -/
def filesBelow (t : FileTree) (top : Location) : Snapshot :=
  t.nodes.toList.filterMap fun e =>
    match e.2 with
    | .file b => if top.isPrefixOf e.1 then some (e.1.drop top.length, b) else none
    | .directory => none

/-- Puts a node down, with the directories above it. -/
def lay (t : FileTree) (l : Location) (n : Node) : FileTree :=
  let above := (List.range l.length).map l.take
  (above.foldl (fun t d => if (t.node? d).isNone then t.put d .directory else t) t).put l n

end FileTree

namespace Snapshot

def contentAt? (s : Snapshot) (l : Location) : Option ByteArray :=
  (s.find? (·.1 = l)).map Prod.snd

/-- What happened between two looks. -/
def changes (old new : Snapshot) : List Change :=
  (new.filterMap fun e =>
    match old.contentAt? e.1 with
    | none => some (.added e.1 e.2)
    | some b => if b = e.2 then none else some (.modified e.1 e.2)) ++
  old.filterMap fun e => if (new.contentAt? e.1).isNone then some (.removed e.1) else none

end Snapshot

end AudioProject
