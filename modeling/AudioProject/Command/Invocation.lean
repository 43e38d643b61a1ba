import AudioProject.Command.Arguments
import AudioProject.Instantiation
import AudioProject.MediaArgument

/-
  The commands, and how a command line names them. The options that all commands share may stand
  before the command or behind it; behind it they count more.
-/

namespace AudioProject.Command

inductive Task where
  | info
  | tree (kind? : Option Kind)
  | events (folder : ObjectId)
  | instantiate (request : Instantiation.Request) (dryRun : Bool)
  | apply (plan : Path) (dryRun : Bool)
  deriving DecidableEq

inductive Verbosity where
  | quiet
  | normal
  | debug
  deriving DecidableEq, Repr

def Verbosity.ofFlags (quiet debug : Bool) : Verbosity :=
  if quiet then .quiet else if debug then .debug else .normal

structure Invocation where
  project? : Option Path
  verbosity : Verbosity
  task : Task
  deriving DecidableEq

namespace Invocation

/-! ## Grammars -/

def isId (s : String) : Bool := (ObjectId.ofString? s).isOk

def isKind (s : String) : Bool := (Kind.ofName? s).isOk

def isMedia (s : String) : Bool := (MediaArgument.ofString? s).isOk

def isPath (s : String) : Bool := s ≠ ""

def valued (name : String) (accepts : String → Bool) : Slot := ⟨name, none, .value false accepts⟩

def dryRun : Slot := ⟨"dry-run", none, .flag⟩

/-- The options that every command takes. -/
def shared : List Slot :=
  [valued "project" isPath, ⟨"debug", none, .flag⟩, ⟨"quiet", some 'q', .flag⟩,
   ⟨"help", some 'h', .help⟩]

/-- What may stand before the command. -/
def front : Grammar := { options := ⟨"version", some 'V', .help⟩ :: shared }

/-- The grammar of a command; none if there is no such command. -/
def grammar? (name : String) : Option Grammar :=
  if name = "info" then some { options := shared }
  else if name = "tree" then some { options := valued "kind" isKind :: shared }
  else if name = "events" then
    some { options := shared, positionals := [valued "folder" isId] }
  else if name = "instantiate" then
    some {
      options := [valued "template" isId, valued "name" fun _ => true, valued "folder" isId,
        valued "bank" isId, valued "bus" isId, ⟨"media", none, .value true isMedia⟩,
        valued "event-id" isId, dryRun] ++ shared
      required := ["template", "name", "folder", "bank", "bus"] }
  else if name = "apply" then
    some { options := dryRun :: shared, positionals := [valued "plan" isPath] }
  else none

def isCommand (word : String) : Bool := word = "help" || (grammar? word).isSome

/-! ## Tasks -/

def id? (m : Matches) (name : String) : Option ObjectId :=
  (m.first? name).bind fun s => (ObjectId.ofString? s).toOption

/-- The task of a command whose words have been read. -/
def task? (name : String) (m : Matches) : Option Task :=
  if name = "info" then some .info
  else if name = "tree" then
    some (.tree ((m.first? "kind").bind fun s => (Kind.ofName? s).toOption))
  else if name = "events" then (id? m "folder").map Task.events
  else if name = "instantiate" then do
    let request : Instantiation.Request :=
      { template := ← id? m "template", eventId? := id? m "event-id", name := ← m.first? "name",
        folder := ← id? m "folder", bank := ← id? m "bank", bus := ← id? m "bus",
        media := (m.all "media").filterMap fun s => (MediaArgument.ofString? s).toOption }
    some (.instantiate request (m.has "dry-run"))
  else if name = "apply" then
    (m.first? "plan").map fun p => .apply ⟨p⟩ (m.has "dry-run")
  else none

/-- Help on a command, or on help itself. -/
def helpOn : List String → Stop
  | [] => .help
  | ["help"] => .help
  | [name] => if (grammar? name).isSome then .help else .usage
  | _ => .usage

/-- Reads a command line without the program's name. -/
def ofWords (words : List String) : Except Stop Invocation := do
  let (s, command?) ← front.start.readUntil front isCommand words
  match command? with
  | none => throw .usage
  | some (name, rest) =>
    match grammar? name with
    | none => throw (helpOn rest)
    | some g =>
      let inner ← g.read rest
      let outer ← s.finish front
      let flag (name : String) : Bool := outer.has name || inner.has name
      match task? name inner with
      | none => throw .usage
      | some task =>
        return ⟨((inner.first? "project").or (outer.first? "project")).map Path.mk,
          .ofFlags (flag "quiet") (flag "debug"), task⟩

end Invocation

end AudioProject.Command
