import AudioProject.Instantiation

/-
  Media as commands and plans name it: a source, an equals sign, and the path of the asset
  folder. The last equals sign counts, so that a source may have some of its own.
-/

namespace AudioProject

namespace MediaArgument

inductive Error where
  | noEquals (text : String)
  | noSource (text : String)
  | badTarget (e : ValueError)
  deriving DecidableEq, Repr

def Error.message : Error → String
  | noEquals text => "expected <source>=<target>, got '" ++ text ++ "'"
  | noSource text => "missing media source in '" ++ text ++ "'"
  | badTarget e => e.message

open Text

def ofString? (s : String) : Except Error MediaSource :=
  match splitLast? '=' s.toList with
  | none => .error (.noEquals s)
  | some ([], _) => .error (.noSource s)
  | some (source, target) =>
    match AssetPath.ofString? (String.ofList target) with
    | .ok p => .ok ⟨⟨String.ofList source⟩, p⟩
    | .error e => .error (.badTarget e)

end MediaArgument

end AudioProject
