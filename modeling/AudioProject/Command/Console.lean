import AudioProject.Command.Failure
import AudioProject.Command.Invocation
import AudioProject.Host

/-
  What a command works with: the host, and the texts that it puts out. Results go to the one
  output, warnings and errors to the other; what is not essential respects the quiet flag.
-/

namespace AudioProject.Command

structure Console where
  host : Host
  verbosity : Verbosity := .normal
  out : String := ""
  err : String := ""

abbrev Job (α : Type) := Action Console Failure α

namespace Console

/-- A line of the result, which comes in any case. -/
def print (line : String) : Job Unit := modify fun c => { c with out := c.out ++ line ++ "\n" }

/-- A line for readers. -/
def say (line : String) : Job Unit := do
  if (← get).verbosity ≠ .quiet then print line

def warn (line : String) : Job Unit := modify fun c =>
  if c.verbosity = .quiet then c else { c with err := c.err ++ "warning: " ++ line ++ "\n" }

def debug (line : String) : Job Unit := modify fun c =>
  if c.verbosity = .debug then { c with err := c.err ++ "[debug] " ++ line ++ "\n" } else c

variable {ε α : Type}

def onHost (wrap : ε → Failure) (x : Action Host ε α) : Job α :=
  Action.within host (fun c h => { c with host := h }) wrap x

/-- What the files say. -/
def lookUp (wrap : ε → Failure) (f : FileTree → Except ε α) : Job α :=
  onHost id (Host.lookUp wrap f)

end Console

/-- A project that a command works on. -/
structure Context where
  root : Path
  config : Config

namespace Context

def layout (x : Context) : Layout := x.config.layout x.root

def openStore (x : Context) : Job Store :=
  Console.lookUp (Failure.openProject x.root) fun t =>
    Store.load t x.layout x.config.keepJournals

/-- Does a job while the project is locked. What is no project is not given a lock. -/
def locked {α : Type} (x : Context) (job : Job α) : Job α := do
  if !(← get).host.files.isFile x.layout.workspace then throw (.noProject x.layout.workspace)
  let place ← Console.onHost Failure.lock (Lock.acquire x.layout)
  let result ← Action.outcome job
  modify fun c => { c with host := Lock.release place c.host }
  match result with
  | .ok a => return a
  | .error e => throw e

/-- Does a job that writes nothing when `dryRun` holds, and locks the project otherwise. -/
def lockedUnless {α : Type} (x : Context) (dryRun : Bool) (job : Job α) : Job α :=
  if dryRun then job else x.locked job

end Context

end AudioProject.Command
