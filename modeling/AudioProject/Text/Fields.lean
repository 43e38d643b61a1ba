/-
  Cutting text at a separator and joining it again. `fields` always gives at least one field,
  and `unfields` undoes it.
-/

namespace AudioProject.Text

/-- The pieces of `xs` between separators, empty ones included. -/
def fieldsOf (sep : Char) : List Char → List (List Char)
  | [] => [[]]
  | c :: xs =>
    if c = sep then [] :: fieldsOf sep xs
    else match fieldsOf sep xs with
      | [] => [[c]]
      | f :: fs => (c :: f) :: fs

def fields (sep : Char) (s : String) : List String :=
  (fieldsOf sep s.toList).map String.ofList

/-- The pieces with one separator between neighbours. -/
def unfieldsOf (sep : Char) : List (List Char) → List Char
  | [] => []
  | [f] => f
  | f :: fs => f ++ sep :: unfieldsOf sep fs

theorem fieldsOf_ne_nil (sep : Char) (xs : List Char) : fieldsOf sep xs ≠ [] := by
  cases xs with
  | nil => simp [fieldsOf]
  | cons c xs =>
    unfold fieldsOf
    split
    · simp
    · split <;> simp

theorem unfieldsOf_fieldsOf (sep : Char) (xs : List Char) :
    unfieldsOf sep (fieldsOf sep xs) = xs := by
  induction xs with
  | nil => rfl
  | cons c xs ih =>
    have hne := fieldsOf_ne_nil sep xs
    unfold fieldsOf
    split
    · next h =>
      cases hf : fieldsOf sep xs with
      | nil => exact absurd hf hne
      | cons f fs => rw [hf] at ih; simp [unfieldsOf, ih, h]
    · cases hf : fieldsOf sep xs with
      | nil => exact absurd hf hne
      | cons f fs =>
        rw [hf] at ih
        cases fs with
        | nil => simpa [unfieldsOf] using ih
        | cons g gs => simpa [unfieldsOf] using ih

/-- The last separator splits the text in two; `none` if there is no separator. -/
def splitLast? (sep : Char) (xs : List Char) : Option (List Char × List Char) :=
  match xs with
  | [] => none
  | c :: xs =>
    match splitLast? sep xs with
    | some (a, b) => some (c :: a, b)
    | none => if c = sep then some ([], xs) else none

/-- The texts with `sep` between neighbours. -/
def joined (sep : String) : List String → String
  | [] => ""
  | [t] => t
  | t :: ts => t ++ sep ++ joined sep ts

end AudioProject.Text
