import AudioProject.Command.Console
import AudioProject.Command.Outline
import AudioProject.Instantiation.Execution
import AudioProject.Staging.Commit

/-
  What the commands do.
-/

namespace AudioProject.Command

open Console

/-! ## Looking at a project -/

/-- The text with blanks behind it up to a width. -/
def padded (width : Nat) (s : String) : String :=
  s ++ String.ofList (List.replicate (width - s.length) ' ')

def unfinishedLine (j : Journal) : String :=
  "  " ++ j.operation ++ " " ++ j.command ++ " started " ++ j.started.display ++ " (" ++
    toString j.createdFiles.length ++ " files)"

def info (x : Context) : Job Unit := do
  let s ← x.openStore
  print ("Project: " ++ s.layout.root.text)
  print ("Serialization model: " ++ s.model.text)
  print ("Workspace: " ++ s.masters.workspace.text)
  print ("Master event folder: " ++ s.masters.eventFolder.text)
  print ("Master bank folder: " ++ s.masters.bankFolder.text)
  print ("Master asset folder: " ++ s.masters.assetFolder.text)
  print ("Master bus: " ++ s.masterBus.text)
  print ("Assets directory: " ++ s.layout.assetsDir)
  Kind.all.forM fun k => print (padded 14 (k.name ++ "s:") ++ " " ++ toString (s.index k).size)
  let unfinished ← lookUp Failure.journals fun t => Journal.unfinished t s.layout
  if unfinished.isEmpty then return
  warn (toString unfinished.length ++ " operation(s) did not finish:")
  unfinished.forM fun j => warn (unfinishedLine j)

/-- The outline of a kind under its name. -/
def kindLines (s : Store) (k : Kind) : List String :=
  (k.name ++ ":") :: (outline s k).map fun line => "  " ++ line

def tree (x : Context) (kind? : Option Kind) : Job Unit := do
  let s ← x.openStore
  let kinds := match kind? with
    | some k => [k]
    | none => Kind.all
  ([""].intercalate (kinds.map (kindLines s))).forM print

def eventLine (folder : ObjectId) (e : EventSummary) : String :=
  let location := match e.folder? with
    | some f => if f = folder then "" else "  (in " ++ f.text ++ ")"
    | none => ""
  e.id.text ++ " " ++ e.name ++ location

def events (x : Context) (folder : ObjectId) : Job Unit := do
  let s ← x.openStore
  let events ← lookUp (Failure.listEvents folder) fun t => s.eventsIn t folder
  if events.isEmpty then
    say ("No events in " ++ folder.text)
  else
    events.forM fun e => print (eventLine folder e)
    debug (toString events.length ++ " event(s)")

/-! ## Making events -/

open Instantiation

def copyLine (c : PlannedCopy) (audio : Object) : String :=
  "  " ++ (if c.reuse then "reuse" else "copy") ++ " " ++ c.source.text ++ " -> " ++ c.dest.text ++
    " (audio file " ++ audio.id.text ++ ")"

def describe (p : Plan) (name : String) : Job Unit := do
  say ("Event '" ++ name ++ "' " ++ p.eventId.text ++ ": " ++ toString p.event.size ++
    " objects (" ++ toString p.copied ++ " copied from template, " ++ toString p.pruned ++
    " pruned)")
  (p.copies.zip p.audioFiles).forM fun (c, audio) => say (copyLine c audio)

def created (name : String) (id : ObjectId) : Job Unit :=
  say ("Created event '" ++ name ++ "' " ++ id.text)

def instantiateEvent (x : Context) (r : Request) (dryRun : Bool) : Job Unit :=
  x.lockedUnless dryRun do
    let s ← x.openStore
    let probing := x.config.probeMedia
    if dryRun then
      let files := (← get).host.files
      let p ← onHost (Failure.planEvent r.name) (Host.onIds id (plan s files probing r))
      describe p r.name
      say "Dry run: nothing written."
    else
      let id ← onHost (Failure.makeEvent r.name) (instantiate s probing r)
      created r.name id
      if (← get).verbosity = .quiet then print id.text

/-! ## Applying a plan -/

def loadPlan (path : Path) : Job Batch.Plan := do
  let text ← lookUp (Failure.readPlan path) fun t => t.readText path
  match Batch.Plan.ofText? text with
  | some p => return p
  | none => throw (.parsePlan path)

def stageLine (k : Kind) (e : IndexEntry) : String :=
  "stage " ++ k.name ++ " " ++ e.id.text ++ " '" ++ e.name ++ "'"

def requestLine (r : Request) : String :=
  "instantiate '" ++ r.name ++ "' from " ++ r.template.text ++ " (" ++ toString r.media.length ++
    " media)"

/-- Says what a plan would do. -/
def rehearse (g : Staging) (rs : List Request) : Job Unit := do
  Kind.all.forM fun k => (g.entries k).forM fun e => say (stageLine k e)
  rs.forM fun r => say (requestLine r)
  let (discarded, _) := g.discardAll
  say ("Dry run: " ++ toString discarded ++ " record(s) discarded, nothing written.")

def commitStaged (s : Store) (g : Staging) : Job Store := fun c =>
  match Staging.commitAll { host := c.host, store := s, staging := g } with
  | .error e t => .error (.commit e) { c with host := t.host }
  | .ok counts t =>
    match say ("Committed " ++ Counts.text counts) { c with host := t.host } with
    | .ok () c => .ok t.store c
    | .error e c => .error e c

/-- Makes the events of a plan one after the other; `made` of `total` are there. -/
def makeEvents (s : Store) (probing : Bool) (made total : Nat) : List Request → Job Unit
  | [] => return
  | r :: rs => do
    let id ← onHost (Failure.makeEventOf r.name made total) (instantiate s probing r)
    created r.name id
    makeEvents s probing (made + 1) total rs

def apply (x : Context) (path : Path) (dryRun : Bool) : Job Unit := do
  let p ← loadPlan path
  x.lockedUnless dryRun do
    let s ← x.openStore
    let keys ← onHost Failure.batch (Host.onIds id (Batch.mintKeys ∅ p.keys))
    let g ← onHost Failure.batch (Host.onIds id (Batch.stagePlan p keys s))
    let rs ← lookUp Failure.batch fun _ => Batch.requests p keys (path.parent?.getD ⟨""⟩)
    if dryRun then rehearse g rs
    else
      let s ← commitStaged s g
      makeEvents s x.config.probeMedia 0 rs.length rs

/-! ## Running a command line -/

def perform (x : Context) : Task → Job Unit
  | .info => info x
  | .tree kind? => tree x kind?
  | .events folder => events x folder
  | .instantiate r dryRun => instantiateEvent x r dryRun
  | .apply path dryRun => apply x path dryRun

/-- The path of the directory that relative paths start from. -/
def currentDir (t : FileTree) : Path := ⟨"/" ++ Text.joined "/" t.current⟩

def invoke (env : Environment) (v : Invocation) : Job Unit := do
  let root := v.project?.getD (currentDir (← get).host.files)
  let config ← lookUp Failure.configuration fun t => Config.load t env (some root)
  perform ⟨root, config⟩ v.task

/-- How a command line ended. -/
inductive Ending where
  | stopped (why : Stop)
  | done
  | failed (e : Failure)
  deriving DecidableEq

namespace Ending

/-- The exit code. -/
def code : Ending → Nat
  | stopped .help => 0
  | stopped .usage => 2
  | done => 0
  | failed _ => 1

end Ending

/-- Runs a command line without the program's name. The error output ends with the failure. -/
def run (env : Environment) (words : List String) (h : Host) : Ending × Console :=
  match Invocation.ofWords words with
  | .error why => (.stopped why, { host := h })
  | .ok v =>
    match invoke env v { host := h, verbosity := v.verbosity } with
    | .ok () c => (.done, c)
    | .error e c => (.failed e, { c with err := c.err ++ e.report })

end AudioProject.Command
