import AudioProject.Proofs.Store.Loading

/-
  Where parents place an entry. The entries of a project that was opened, asset folders apart, are
  roots or name a parent, and the tree has what they name (`isPlaced_of_load`). So the parents of an
  entry lead up to a root in one way, or to none (`Rises`). The converse fails: of an entry that has
  become a root the tree keeps the parent, and only where such a root has none that leads up to
  another (`RootsStayFree`) does all that is below a rising entry rise too (`Rises.child`).
-/

namespace AudioProject

/-! ## Entries and their parents -/

namespace IndexEntry

theorem parent?_of_isRoot {e : IndexEntry} (h : e.isRoot = true) : e.parent? = none := by
  unfold isRoot at h
  unfold parent?
  split at h <;> simp_all

/-- An entry of a kind that parents place is a root, or names one. -/
theorem isRoot_or_parent? {k : Kind} {o : Object} {e : IndexEntry} (hk : k ≠ .assetFolder)
    (h : ofObject? k o = some e) : e.isRoot = true ∨ ∃ p, e.parent? = some p := by
  obtain ⟨position, hposition, rfl⟩ := Option.map_eq_some_iff.1 h
  cases position with
  | root => exact Or.inl rfl
  | parent p => exact Or.inr ⟨p, rfl⟩
  | path p =>
    -- only asset folders have paths
    unfold position? at hposition
    rw [if_neg hk] at hposition
    cases k with
    | assetFolder => exact absurd rfl hk
    | _ =>
      simp only [Kind.parentEdge?] at hposition
      split at hposition
      · cases hposition
      · split at hposition
        · split at hposition <;> cases hposition
        · cases hposition

end IndexEntry

namespace KindIndex

variable {x : KindIndex} {e : IndexEntry} {id p : ObjectId} {m n : Nat}

/-- Entries are roots or name a parent, and the tree has the parents that they name. -/
structure IsPlaced (x : KindIndex) : Prop extends x.IsSound where
  pointer : ∀ id e p, x.get? id = some e → e.parent? = some p → x.tree.parent? id = some p
  position : ∀ id e, x.get? id = some e → e.isRoot = true ∨ ∃ p, e.parent? = some p

theorem IsPlaced.insert (h : x.IsPlaced) (he : e.isRoot = true ∨ ∃ p, e.parent? = some p) :
    (x.insert e).IsPlaced where
  toIsSound := h.toIsSound.insert e
  pointer := by
    intro id e' p he' hp
    rw [get?_insert] at he'
    rw [parent?_insert]
    split at he'
    · next hid =>
      obtain rfl := Option.some.inj he'
      rw [if_pos hid, hp]
      rfl
    · next hid =>
      rw [if_neg hid]
      exact h.pointer id e' p he' hp
  position := by
    intro id e' he'
    rw [get?_insert] at he'
    split at he'
    · obtain rfl := Option.some.inj he'
      exact he
    · exact h.position id e' he'

/-- The index of a project that was opened is placed, but for asset folders. -/
theorem isPlaced_of_load {t : FileTree} {l : Layout} {keep : Bool} {s : Store}
    (h : Store.load t l keep = .ok s) {k : Kind} (hk : k ≠ .assetFolder) :
    (s.index k).IsPlaced := by
  obtain ⟨-, -, c, -, hpresents⟩ := Store.load_eq_ok_iff.1 h
  rw [hpresents.index]
  refine insertObjects_induction ⟨.empty k, nofun, nofun⟩ fun y o e _ he hy => ?_
  exact hy.insert (IndexEntry.isRoot_or_parent? hk he)

/-- The parents of an entry lead up to a root, which is the last of `n`. -/
inductive Rises (x : KindIndex) : ObjectId → Nat → Prop where
  | root {id : ObjectId} {e : IndexEntry} (he : x.get? id = some e) (hroot : e.isRoot = true) :
    Rises x id 0
  | step {id p : ObjectId} {e : IndexEntry} {n : Nat} (he : x.get? id = some e)
    (hp : e.parent? = some p) (h : Rises x p n) : Rises x id (n + 1)

theorem Rises.exists_entry (h : x.Rises id n) : ∃ e, x.get? id = some e := by
  cases h with
  | root he _ => exact ⟨_, he⟩
  | step he _ _ => exact ⟨_, he⟩

theorem Rises.unique (h : x.Rises id m) (h' : x.Rises id n) : m = n := by
  induction h generalizing n with
  | root he hroot =>
    cases h' with
    | root _ _ => rfl
    | step he' hp _ =>
      obtain rfl := Option.some.inj (he.symm.trans he')
      rw [IndexEntry.parent?_of_isRoot hroot] at hp
      cases hp
  | step he hp _ ih =>
    cases h' with
    | root he' hroot =>
      obtain rfl := Option.some.inj (he.symm.trans he')
      rw [IndexEntry.parent?_of_isRoot hroot] at hp
      cases hp
    | step he' hp' hrest =>
      obtain rfl := Option.some.inj (he.symm.trans he')
      obtain rfl := Option.some.inj (hp.symm.trans hp')
      rw [ih hrest]

/-- No root has a parent left in the tree that leads up to a root. -/
def RootsStayFree (x : KindIndex) : Prop :=
  ∀ id e p n, x.get? id = some e → e.isRoot = true → x.tree.parent? id = some p → ¬ x.Rises p n

/-- Below an entry that rises all others rise, by one more. -/
theorem Rises.child (h : x.Rises p n) (hx : x.IsPlaced) (hfree : x.RootsStayFree)
    (hp : x.tree.parent? id = some p) : x.Rises id (n + 1) := by
  obtain ⟨e, he⟩ := Option.isSome_iff_exists.1 (hx.rooted id p hp)
  rcases hx.position id e he with hroot | ⟨q, hq⟩
  · exact absurd h (hfree id e p n he hroot hp)
  · obtain rfl := Option.some.inj (hp.symm.trans (hx.pointer id e q he hq))
    exact .step he hq h

/-- What `n` steps up the tree lead to. -/
def climb (x : KindIndex) : Nat → ObjectId → Option ObjectId
  | 0, id => some id
  | n + 1, id => (x.climb n id).bind x.tree.parent?

end KindIndex

end AudioProject
