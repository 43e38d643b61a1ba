import AudioProject.AssetPath
import AudioProject.ObjectClass
import AudioProject.ObjectId
import AudioProject.Path

/-
  Where a project keeps its files: documents below `Metadata`, media below the assets directory,
  and what the tool keeps for itself below `.eventforge`.
-/

namespace AudioProject

def defaultAssetsDir : String := "Assets"

def metadataName : String := "Metadata"

def toolDirName : String := ".eventforge"

structure Layout where
  root : Path
  assetsDir : String := defaultAssetsDir
  deriving DecidableEq

namespace Layout

def metadata (l : Layout) : Path := l.root.join metadataName

def workspace (l : Layout) : Path := l.metadata.join "Workspace.xml"

def masterBus (l : Layout) : Path := l.metadata.join "Master.xml"

/-- A directory of documents. -/
def documentDir (l : Layout) (name : String) : Path := l.metadata.join name

/-- The document of an object; none if its class has no documents of its own. -/
def objectPath? (l : Layout) (c : ObjectClass) (id : ObjectId) : Option Path :=
  c.directory?.map fun dir => (l.documentDir dir).join id.fileName

def eventDir (l : Layout) : Path := l.documentDir "Event"

def assetsRoot (l : Layout) : Path := l.root.join l.assetsDir

/-- The directory of an asset folder. -/
def assetDir (l : Layout) (p : AssetPath) : Path := p.components.foldl Path.join l.assetsRoot

def toolDir (l : Layout) : Path := l.root.join toolDirName

def config (l : Layout) : Path := l.toolDir.join "config.toml"

def lock (l : Layout) : Path := l.toolDir.join "lock"

/-- The directory of journals. -/
def journals (l : Layout) : Path := l.toolDir.join "ops"

def journal (l : Layout) (op : String) : Path := l.journals.join (op ++ ".json")

end Layout

end AudioProject
