import AudioProject.Text.Blank
import AudioProject.Text.Fields
import AudioProject.ValueError

/-
  Paths of asset folders: lists of components, the master folder being the empty list. The
  written form ends each component with a slash; reading allows the last slash to be missing.
-/

namespace AudioProject

open Text

def IsComponentChar (c : Char) : Prop := c ≠ '/' ∧ c ≠ '\\' ∧ isControl c = false

instance (c : Char) : Decidable (IsComponentChar c) := inferInstanceAs (Decidable (_ ∧ _))

def IsComponent (s : String) : Prop :=
  s ≠ "" ∧ s ≠ "." ∧ s ≠ ".." ∧ ∀ c ∈ s.toList, IsComponentChar c

instance (s : String) : Decidable (IsComponent s) :=
  have : Decidable (∀ c ∈ s.toList, IsComponentChar c) := List.decidableBAll _ _
  inferInstanceAs (Decidable (_ ∧ _))

structure AssetPath where
  components : List String
  valid : ∀ c ∈ components, IsComponent c := by simp
  deriving DecidableEq

namespace AssetPath

@[ext] theorem ext {p q : AssetPath} (h : p.components = q.components) : p = q := by
  cases p; cases q; cases h; rfl

def root : AssetPath := ⟨[], by simp⟩

def isRoot (p : AssetPath) : Bool := p.components.isEmpty

/-- The written form. -/
def text (p : AssetPath) : String := String.join (p.components.map (· ++ "/"))

/-- The written form as messages show it. -/
def display (p : AssetPath) : String := if p.isRoot then "<root>" else p.text

/-- The first of `parts` that is no component decides what is wrong with `whole`. -/
def firstFault (whole : String) : List String → ValueError
  | [] => .emptyComponent whole
  | p :: ps =>
    if p = "" then .emptyComponent whole
    else if p = "." ∨ p = ".." then .dotComponent p whole
    else if p.toList.any isControl then .controlInAssetPath
    else firstFault whole ps

/-- The text without one slash at its end. -/
def withoutSlash (s : String) : String :=
  if s.toList.getLast? = some '/' then String.ofList s.toList.dropLast else s

def ofString? (s : String) : Except ValueError AssetPath :=
  if s = "" then .ok root
  else if s.toList.head? = some '/' then .error (.absoluteAssetPath s)
  else if '\\' ∈ s.toList then .error (.backslashInAssetPath s)
  else
    let parts := fields '/' (withoutSlash s)
    if h : ∀ c ∈ parts, IsComponent c then .ok ⟨parts, h⟩
    else .error (firstFault s parts)

/-- One component shorter; the root has no parent. -/
def parent? (p : AssetPath) : Option AssetPath :=
  if p.isRoot then none
  else some ⟨p.components.dropLast, fun c h => p.valid c (List.dropLast_subset _ h)⟩

/-- The last component, empty for the root. -/
def name (p : AssetPath) : String := p.components.getLast?.getD ""

def depth (p : AssetPath) : Nat := p.components.length

/-- The first `n` components. -/
def take (p : AssetPath) (n : Nat) : AssetPath :=
  ⟨p.components.take n, fun c h => p.valid c (List.mem_of_mem_take h)⟩

/-- Every shorter path above `p`, nearest first, the root last. -/
def parents (p : AssetPath) : List AssetPath := (List.range p.depth).reverse.map p.take

/-- Proper ancestry: fewer components, and the same ones as far as they go. -/
def isAncestorOf (p q : AssetPath) : Bool :=
  p.depth < q.depth && p.components.isPrefixOf q.components

/-- The path of a file in the folder. -/
def joinFile (p : AssetPath) (file : String) : String := p.text ++ file

end AssetPath

end AudioProject
