import AudioProject.Text.Blank
import AudioProject.ValueError

/-
  Object ids: non-empty tokens that stand unescaped in markup and in file names. The usual id is
  a version 4 identifier in braces; a supply of ids hands out new ones.
-/

namespace AudioProject

open Text

/-- Characters that would have to be escaped in markup, or that separate path components. -/
def unsafeIdChars : List Char := ['<', '>', '&', '"', '/', '\\']

def IsIdChar (c : Char) : Prop :=
  (isBlank c || isControl c) = false ∧ c ∉ unsafeIdChars

instance (c : Char) : Decidable (IsIdChar c) := inferInstanceAs (Decidable (_ ∧ _))

def IsIdText (s : String) : Prop := s.toList ≠ [] ∧ ∀ c ∈ s.toList, IsIdChar c

instance (s : String) : Decidable (IsIdText s) :=
  @instDecidableAnd _ _ inferInstance (List.decidableBAll IsIdChar s.toList)

structure ObjectId where
  text : String
  isIdText : IsIdText text
  deriving DecidableEq

namespace ObjectId

@[ext] theorem ext {a b : ObjectId} (h : a.text = b.text) : a = b := by
  cases a; cases b; cases h; rfl

instance : ToString ObjectId := ⟨text⟩

/-- The first character of `cs` that no id has decides what is wrong with `whole`. -/
def firstFault (whole : String) : List Char → ValueError
  | [] => .emptyId
  | c :: cs =>
    if isBlank c || isControl c then .blankInId whole
    else if c ∈ unsafeIdChars then .characterInId c whole
    else firstFault whole cs

def ofString? (s : String) : Except ValueError ObjectId :=
  if h : IsIdText s then .ok ⟨s, h⟩ else .error (firstFault s s.toList)

/-- The name of the document that holds the object. -/
def fileName (id : ObjectId) : String := id.text ++ ".xml"

theorem ofString?_eq_ok_iff (s : String) (id : ObjectId) :
    ofString? s = .ok id ↔ id.text = s := by
  unfold ofString?
  split
  · constructor
    · intro h
      cases h
      rfl
    · intro h
      exact congrArg _ (ext h.symm)
  · next h =>
    constructor
    · intro h'
      cases h'
    · intro h'
      exact absurd (h' ▸ id.isIdText) h

/-! ## New ids -/

/-- The lower-case hexadecimal digits of `n`, the last `width` of them. -/
def hexWidth : Nat → Nat → List Char
  | 0, _ => []
  | w + 1, n => hexWidth w (n / 16) ++ [Nat.digitChar (n % 16)]

/-- The text of a version 4 identifier, from 122 bits in 8, 4, 3, 4 and 12 digits; the first digit
of the fourth group is one of `8`, `9`, `a` and `b`. -/
def version4 (n : Nat) : List Char :=
  hexWidth 8 (n / Nat.pow 2 90) ++ ['-'] ++ hexWidth 4 (n / Nat.pow 2 74) ++ ['-', '4'] ++
    hexWidth 3 (n / Nat.pow 2 62) ++ ['-'] ++
    hexWidth 4 (0x8000 + n / Nat.pow 2 48 % Nat.pow 2 14) ++ ['-'] ++
    hexWidth 12 n

theorem isIdChar_digitChar (n : Nat) : IsIdChar (Nat.digitChar (n % 16)) := by
  have h : ∀ k < 16, IsIdChar (Nat.digitChar k) := by decide
  exact h _ (Nat.mod_lt _ (by decide))

theorem isIdChar_hexWidth (w n : Nat) : ∀ c ∈ hexWidth w n, IsIdChar c := by
  induction w generalizing n with
  | zero => simp [hexWidth]
  | succ w ih =>
    intro c hc
    rcases List.mem_append.1 hc with h | h
    · exact ih _ c h
    · rw [List.mem_singleton.1 h]
      exact isIdChar_digitChar n

theorem isIdChar_version4 (n : Nat) : ∀ c ∈ version4 n, IsIdChar c := by
  intro c hc
  have hd : IsIdChar '-' := by decide
  have h4 : IsIdChar '4' := by decide
  simp only [version4, List.mem_append, List.mem_cons, List.not_mem_nil, or_false] at hc
  rcases hc with (((((((h | h) | h) | h | h) | h) | h) | h) | h) | h
  all_goals first
    | exact isIdChar_hexWidth _ _ c h
    | exact h ▸ hd
    | exact h ▸ h4

/-- The identifier in braces. -/
def ofNumber (n : Nat) : ObjectId where
  text := String.ofList ('\x7b' :: version4 n ++ ['\x7d'])
  isIdText := by
    have ho : IsIdChar '\x7b' := by decide
    have hc : IsIdChar '\x7d' := by decide
    refine ⟨by simp, ?_⟩
    intro c h
    simp only [String.toList_ofList, List.cons_append, List.mem_cons, List.mem_append,
      List.not_mem_nil, or_false] at h
    rcases h with h | h | h
    · exact h ▸ ho
    · exact isIdChar_version4 n c h
    · exact h ▸ hc

end ObjectId

/-- A source of new ids: the `n`-th is `nth n`, and `issued` of them are gone. -/
structure IdSupply where
  nth : Nat → ObjectId
  issued : Nat := 0

namespace IdSupply

def mint (s : IdSupply) : ObjectId × IdSupply :=
  (s.nth s.issued, { s with issued := s.issued + 1 })

/-- One new id for each element, in order. -/
def mintList (s : IdSupply) : Nat → List ObjectId × IdSupply
  | 0 => ([], s)
  | n + 1 =>
    let (id, s) := s.mint
    let (ids, s) := s.mintList n
    (id :: ids, s)

/-- Consecutive version 4 identifiers from `start` on. -/
def ofStart (start : Nat) : IdSupply := ⟨fun n => .ofNumber (start + n), 0⟩

end IdSupply

end AudioProject
