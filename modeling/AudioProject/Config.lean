import AudioProject.Files.Tree
import AudioProject.Layout
import AudioProject.Toml.Reading

/-
  Configuration: what the user's file and the project's file say, and the defaults where both are
  silent. The project's word counts before the user's. Files may be missing, but a file that is
  there has to be read and understood.
-/

namespace AudioProject

/-- What a configuration file says. Only a project's file may name the assets directory. -/
structure Settings where
  assetsDir? : Option String := none
  probeMedia? : Option Bool := none
  keepJournals? : Option Bool := none
  deriving DecidableEq, Repr

namespace Settings

/-- Why a text is no name for the assets directory. -/
inductive Flaw where
  | empty
  | notRelative (dir : String)
  | badComponent (dir : String)
  | reserved (first : String)
  deriving DecidableEq, Repr

def Flaw.message : Flaw → String
  | empty => "assets_dir cannot be empty"
  | notRelative dir => "assets_dir must be a relative '/'-separated path: " ++ dir
  | badComponent dir => "assets_dir has an invalid component: " ++ dir
  | reserved first => "assets_dir cannot live under " ++ first ++ "/"

open Text

/-- Refuses directories that are absolute, leave the project or hold the project's own files. -/
def checkAssetsDir (dir : String) : Except Flaw Unit :=
  let components := fields '/' dir
  let first := components.headD ""
  if dir = "" then .error .empty
  else if dir.toList.head? = some '/' ∨ '\\' ∈ dir.toList then .error (.notRelative dir)
  else if components.any fun c => c = "" || c = "." || c = ".." then .error (.badComponent dir)
  else if first = metadataName ∨ first = toolDirName then .error (.reserved first)
  else .ok ()

def check (s : Settings) : Except Flaw Unit :=
  match s.assetsDir? with
  | some dir => checkAssetsDir dir
  | none => .ok ()

open Toml in
def ofUserText? (text : String) : Option Settings := do
  match (← parse? text).record? ["probe_media", "keep_journals"] with
  | some [probe, keep] =>
    some { probeMedia? := ← optional? Value.bool? probe
           keepJournals? := ← optional? Value.bool? keep }
  | _ => none

open Toml in
def ofProjectText? (text : String) : Option Settings := do
  match (← parse? text).record? ["assets_dir", "probe_media", "keep_journals"] with
  | some [dir, probe, keep] =>
    some { assetsDir? := ← optional? Value.text? dir
           probeMedia? := ← optional? Value.bool? probe
           keepJournals? := ← optional? Value.bool? keep }
  | _ => none

end Settings

/-- The environment that decides where the user's file is. -/
structure Environment where
  configFile? : Option String := none
  configHome? : Option String := none
  home? : Option String := none
  deriving DecidableEq, Repr

structure Config where
  user : Settings := {}
  project? : Option Settings := none
  userPath? : Option Path := none
  projectPath? : Option Path := none
  deriving DecidableEq

namespace Config

inductive Error where
  | read (path : Path) (e : FileError)
  | parse (path : Path)
  | invalid (why : Settings.Flaw)
  deriving DecidableEq, Repr

/-- What messages say in place of what is wrong with a text. -/
def diagnostic : String := "<toml>"

def Error.message : Error → String
  | read path e => "failed to read config file '" ++ path.text ++ "': " ++ e.message
  | parse path => "failed to parse config file '" ++ path.text ++ "': " ++ diagnostic
  | invalid why => "invalid config value: " ++ why.message

/-! ## Reading -/

/-- The places of the user's file, the first that is there counts. -/
def userPaths (env : Environment) : List Path :=
  (env.configFile?.map Path.mk).toList ++
    (env.configHome?.map fun dir => (Path.mk dir).join "eventforge/config.toml").toList ++
    (env.home?.map fun dir => ((Path.mk dir).join toolDirName).join "config.toml").toList

def readFile (t : FileTree) (parse? : String → Option Settings) (path : Path) :
    Except Error Settings :=
  match t.readText path with
  | .error e => .error (.read path e)
  | .ok text =>
    match parse? text with
    | some s => .ok s
    | none => .error (.parse path)

def readProject (t : FileTree) (path : Path) : Except Error Settings := do
  let s ← readFile t Settings.ofProjectText? path
  s.check.mapError Error.invalid
  return s

/-- The configuration for a project, or without one. -/
def load (t : FileTree) (env : Environment) (root? : Option Path) : Except Error Config := do
  let userPath? := (userPaths env).find? t.has
  let user ← match userPath? with
    | some path => readFile t Settings.ofUserText? path
    | none => pure {}
  let projectPath? := (root?.map fun root => (Layout.mk root defaultAssetsDir).config).filter t.has
  match projectPath? with
  | some path => return ⟨user, some (← readProject t path), userPath?, some path⟩
  | none => return ⟨user, none, userPath?, none⟩

/-! ## What counts -/

def assetsDir (c : Config) : String := (c.project?.bind (·.assetsDir?)).getD defaultAssetsDir

def probeMedia (c : Config) : Bool :=
  ((c.project?.bind (·.probeMedia?)).or c.user.probeMedia?).getD true

def keepJournals (c : Config) : Bool :=
  ((c.project?.bind (·.keepJournals?)).or c.user.keepJournals?).getD false

def layout (c : Config) (root : Path) : Layout := ⟨root, c.assetsDir⟩

end Config

end AudioProject
