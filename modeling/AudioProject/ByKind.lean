import AudioProject.Kind

/-
  A value for each kind.
-/

namespace AudioProject

structure ByKind (α : Type) where
  eventFolder : α
  assetFolder : α
  bank : α
  bus : α
  deriving DecidableEq, Repr

namespace ByKind

variable {α β : Type}

def get (x : ByKind α) : Kind → α
  | .eventFolder => x.eventFolder
  | .assetFolder => x.assetFolder
  | .bank => x.bank
  | .bus => x.bus

def set (x : ByKind α) (k : Kind) (a : α) : ByKind α :=
  match k with
  | .eventFolder => { x with eventFolder := a }
  | .assetFolder => { x with assetFolder := a }
  | .bank => { x with bank := a }
  | .bus => { x with bus := a }

def all (a : α) : ByKind α := ⟨a, a, a, a⟩

/-- The values in commit order. -/
def toList (x : ByKind α) : List α := Kind.all.map x.get

@[simp] theorem get_set (x : ByKind α) (k j : Kind) (a : α) :
    (x.set k a).get j = if k = j then a else x.get j := by
  cases k <;> cases j <;> rfl

@[simp] theorem get_all (a : α) (k : Kind) : (all a).get k = a := by cases k <;> rfl

theorem ext_get {x y : ByKind α} (h : ∀ k, x.get k = y.get k) : x = y := by
  cases x; cases y
  have h1 := h .eventFolder
  have h2 := h .assetFolder
  have h3 := h .bank
  have h4 := h .bus
  simp only [get] at h1 h2 h3 h4
  rw [h1, h2, h3, h4]

end ByKind

end AudioProject
