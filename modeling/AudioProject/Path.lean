import AudioProject.Text.Fields

/-
  File paths as text, with slashes between names. Runs of slashes and single dots name nothing,
  but they stay in the text; a path that begins with a slash is absolute. `join` puts one path
  after another, and an absolute second path stands alone.
-/

namespace AudioProject

open Text

structure Path where
  text : String
  deriving DecidableEq, Repr

namespace Path

instance : ToString Path := ⟨text⟩

def isAbsolute (p : Path) : Bool := p.text.toList.head? = some '/'

/-- `name` under `p`. -/
def join (p : Path) (name : String) : Path :=
  if name.toList.head? = some '/' then ⟨name⟩
  else if p.text = "" ∨ p.text.toList.getLast? = some '/' then ⟨p.text ++ name⟩
  else ⟨p.text ++ "/" ++ name⟩

/-- The pieces between slashes, empty ones and dots included. -/
def pieces (p : Path) : List String := fields '/' p.text

/-- Whether a piece names nothing. -/
def isSilent (piece : String) : Bool := piece = "" || piece = "."

/-- The names on the way, `..` among them. -/
def names (p : Path) : List String := p.pieces.filter fun s => !isSilent s

/-- How the path begins, which is no name: a slash or a dot, and the pieces after it. -/
def split (p : Path) : List String × List String :=
  match p.pieces with
  | "" :: ps => ([""], ps)
  | "." :: ps => (["."], ps)
  | ps => ([], ps)

/-- Without the silent pieces at the end. -/
def trimSilent (ps : List String) : List String := (ps.reverse.dropWhile isSilent).reverse

/-- The last name; none if the path ends in `..` or names nothing. -/
def fileName? (p : Path) : Option String :=
  match (trimSilent p.split.2).getLast? with
  | some name => if name = ".." then none else some name
  | none => none

/-- The path without its last name. -/
def parent? (p : Path) : Option Path :=
  let (start, body) := p.split
  match trimSilent body with
  | [] => if start = ["."] then some ⟨""⟩ else none
  | body =>
    match start, trimSilent body.dropLast with
    | [""], [] => some ⟨"/"⟩
    | start, rest => some ⟨joined "/" (start ++ rest)⟩

/-- The part of the last name after its last dot, if the dot is not its first character. -/
def extension? (p : Path) : Option String :=
  match p.fileName? with
  | none => none
  | some name =>
    match splitLast? '.' name.toList with
    | some (stem, ext) => if stem = [] then none else some (String.ofList ext)
    | none => none

end Path

end AudioProject
