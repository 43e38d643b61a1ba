import AudioProject.Text.Fields
import AudioProject.ValueError

/-
  The version tag of a document, `Studio.` and three decimal numbers. The text is kept as it is
  written, zeros in front included.
-/

namespace AudioProject

open Text

def isDecimal (cs : List Char) : Bool := !cs.isEmpty && cs.all Char.isDigit

/-- The number that decimal digits write. -/
def decimalValue (cs : List Char) : Nat :=
  cs.foldl (fun n c => 10 * n + (c.toNat - '0'.toNat)) 0

def modelTag : List Char := "Studio.".toList

/-- The three parts of a version tag. -/
def modelParts? (s : String) : Option (List (List Char)) :=
  if modelTag.isPrefixOf s.toList then
    let parts := fieldsOf '.' (s.toList.drop modelTag.length)
    if parts.length = 3 ∧ parts.all isDecimal then some parts else none
  else none

structure Model where
  text : String
  valid : (modelParts? text).isSome
  deriving DecidableEq

namespace Model

@[ext] theorem ext {a b : Model} (h : a.text = b.text) : a = b := by
  cases a; cases b; cases h; rfl

def ofString? (s : String) : Except ValueError Model :=
  if h : (modelParts? s).isSome then .ok ⟨s, h⟩ else .error (.badModel s)

theorem ofString?_text (m : Model) : ofString? m.text = .ok m := by
  simp [ofString?, m.valid]

/-- Major, minor and patch number; one that does not fit in 32 bits counts as 0. -/
def version (m : Model) : List Nat :=
  ((modelParts? m.text).getD []).map fun cs =>
    let n := decimalValue cs
    if n < Nat.pow 2 32 then n else 0

end Model

end AudioProject
