import AudioProject.Text.Quoted

/-
  Why a piece of text is not the value it should be.
-/

namespace AudioProject

inductive ValueError where
  | emptyId
  | blankInId (text : String)
  | characterInId (c : Char) (text : String)
  | absoluteAssetPath (text : String)
  | backslashInAssetPath (text : String)
  | emptyComponent (text : String)
  | dotComponent (component text : String)
  | controlInAssetPath
  | badModel (text : String)
  | unknownKind (text : String)
  deriving DecidableEq, Repr

namespace ValueError

open Text

def message : ValueError → String
  | emptyId => "invalid object id: id cannot be empty"
  | blankInId t => "invalid object id: id cannot contain whitespace: " ++ quoted t
  | characterInId c t =>
    "invalid object id: id cannot contain '" ++ c.toString ++ "': " ++ quoted t
  | absoluteAssetPath t => "invalid asset path: asset path must be relative: " ++ quoted t
  | backslashInAssetPath t => "invalid asset path: asset path must use '/': " ++ quoted t
  | emptyComponent t => "invalid asset path: asset path has an empty component: " ++ quoted t
  | dotComponent c t =>
    "invalid asset path: asset path cannot contain '" ++ c ++ "': " ++ quoted t
  | controlInAssetPath => "invalid asset path: asset path cannot contain control characters"
  | badModel t => "invalid serialization model: " ++ t
  | unknownKind t => "unknown object kind: " ++ t

end ValueError

end AudioProject
