import AudioProject.Staging
import AudioProject.Store.Writing

/-
  Committing what is staged, kind after kind. A record is ready when its parent is committed. Of
  each kind the ready records are written in staging order, and again those that became ready by
  this, until none is left or a pass commits nothing. Each document is journaled after it is
  written.
-/

namespace AudioProject

/-- A project that is being worked on: its store, what is staged, and where all this happens. -/
structure Session where
  host : Host
  store : Store
  staging : Staging := {}

namespace Staging

/-- A session in the middle of a commit. -/
structure Commit extends Session where
  journal : Journal
  counts : Counts := Counts.zero

/-- Whether the parent of a record is committed, or there is none. -/
def isReady (s : Store) (k : Kind) (r : PendingRecord) : Bool :=
  if k = .assetFolder then
    match r.assetPath?.bind AssetPath.parent? with
    | some parent => parent.isRoot || (s.assetFolderAt? parent).isSome
    | none => false
  else
    match r.parent? k with
    | some parent => s.contains k parent
    | none => true

namespace Commit

variable {ε α : Type}

def onHost (wrap : ε → Error) (x : Action Host ε α) : Action Commit Error α :=
  Action.within (fun c => c.host) (fun c h => { c with host := h }) wrap x

/-- Journals a step. -/
def append (d : Journal.Deed) : Action Commit Error Unit := do
  modify fun c => { c with journal := c.journal.record d c.host.now }
  let c ← get
  onHost Error.journal (c.journal.save c.store.layout)

/-- Ends the journal. -/
def close (p : Journal.Phase) : Action Commit Error Unit := do
  modify fun c => { c with journal := c.journal.finish p c.host.now }
  let c ← get
  onHost Error.journal (c.journal.close c.store.layout c.store.keepJournals)

/-- Writes the document of a record, from when on it is in the index. -/
def write (k : Kind) (r : PendingRecord) : Action Commit Error Path := do
  let c ← get
  let (store, path) ← onHost Error.store (Host.onFiles id (c.store.commit k r.objects))
  modify fun c => { c with store := store }
  return path

def commitRecord (k : Kind) (r : PendingRecord) : Action Commit Error Unit := do
  let path ← write k r
  modify fun c => { c with staging := c.staging.take k r }
  append (.objectWrite r.object.objectClass.name r.id path)
  modify fun c => { c with counts := c.counts.increment k }

/-- Commits those of `ids` that are ready. Says whether there was one. -/
def pass (k : Kind) : List ObjectId → Action Commit Error Bool
  | [] => return false
  | id :: ids => do
    let c ← get
    match c.staging.get? k id with
    | none => pass k ids
    | some r =>
      if isReady c.store k r then
        commitRecord k r
        let _ ← pass k ids
        return true
      else pass k ids

/-- Passes until nothing of the kind is left, or one commits nothing. Every other pass commits a
record, so `n` of them do for `n` records. -/
def passes (k : Kind) : Nat → Action Commit Error Unit
  | 0 => return
  | n + 1 => do
    let progress ← pass k ((← get).staging.ids k)
    let left := (← get).staging.ids k
    if left.isEmpty then return
    if progress then passes k n
    else
      close .incomplete
      throw (.unresolved k left (← get).counts)

def kinds : List Kind → Action Commit Error Unit
  | [] => return
  | k :: ks => do
    passes k ((← get).staging.ids k).length
    kinds ks

end Commit

/-- Commits everything that is staged. What is left over after an error stays staged. -/
def commitAll : Action Session Error Counts := fun s =>
  if s.staging.size = 0 then .ok Counts.zero s
  else
    let (journal, host) := Journal.begin s.host "commit"
    let run := do
      Commit.kinds Kind.all
      Commit.close .committed
    match run { s with host := host, journal := journal } with
    | .ok () c => .ok c.counts c.toSession
    | .error e c => .error e c.toSession

end Staging

end AudioProject
