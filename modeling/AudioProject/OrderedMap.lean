/-
  Maps that keep the order in which their keys first came in. A map is a list of pairs with
  distinct keys; `insert` overwrites in place and puts a new key last, so a map is determined
  by its keys in order and by `get?`.
-/

namespace AudioProject

variable {κ ν : Type}

/-- Replaces the value of `k`, or puts the pair at the end. -/
def insertPair [DecidableEq κ] (k : κ) (v : ν) : List (κ × ν) → List (κ × ν)
  | [] => [(k, v)]
  | p :: ps => if p.1 = k then (k, v) :: ps else p :: insertPair k v ps

theorem keys_insertPair [DecidableEq κ] (k : κ) (v : ν) (ps : List (κ × ν)) :
    (insertPair k v ps).map Prod.fst =
      if k ∈ ps.map Prod.fst then ps.map Prod.fst else ps.map Prod.fst ++ [k] := by
  induction ps with
  | nil => simp [insertPair]
  | cons p ps ih =>
    unfold insertPair
    split
    · next h => simp [h]
    · next h =>
      simp only [List.map_cons, ih, List.mem_cons]
      by_cases hk : k ∈ ps.map Prod.fst <;> simp [hk, Ne.symm h]

theorem nodup_keys_insertPair [DecidableEq κ] (k : κ) (v : ν) (ps : List (κ × ν))
    (h : (ps.map Prod.fst).Nodup) : ((insertPair k v ps).map Prod.fst).Nodup := by
  rw [keys_insertPair]
  split
  · exact h
  · next hk => exact List.nodup_append.2 ⟨h, by simp, by
      intro a ha b hb e
      simp only [List.mem_singleton] at hb
      exact hk (hb ▸ e ▸ ha)⟩

/-- The value of the first pair whose key is `k`. -/
def findPair? [DecidableEq κ] (k : κ) : List (κ × ν) → Option ν
  | [] => none
  | p :: ps => if p.1 = k then some p.2 else findPair? k ps

theorem findPair?_insertPair [DecidableEq κ] (k j : κ) (v : ν) (ps : List (κ × ν)) :
    findPair? j (insertPair k v ps) = if k = j then some v else findPair? j ps := by
  induction ps with
  | nil => simp [insertPair, findPair?]
  | cons p ps ih =>
    unfold insertPair
    split
    · next h =>
      unfold findPair?
      by_cases hk : k = j <;> simp [hk, h]
    · next h =>
      unfold findPair?
      rw [ih]
      by_cases hk : k = j
      · simp only [hk, if_true]
        rw [if_neg (hk ▸ h)]
      · simp [hk]

structure OrderedMap (κ ν : Type) where
  toList : List (κ × ν)
  nodup : (toList.map Prod.fst).Nodup := by simp

namespace OrderedMap

@[ext] theorem ext {m n : OrderedMap κ ν} (h : m.toList = n.toList) : m = n := by
  cases m; cases n; cases h; rfl

instance [DecidableEq κ] [DecidableEq ν] : DecidableEq (OrderedMap κ ν) := fun m n =>
  decidable_of_iff (m.toList = n.toList) ⟨ext, fun h => h ▸ rfl⟩

def empty : OrderedMap κ ν := ⟨[], by simp⟩

instance : EmptyCollection (OrderedMap κ ν) := ⟨empty⟩

instance : Inhabited (OrderedMap κ ν) := ⟨empty⟩

def keys (m : OrderedMap κ ν) : List κ := m.toList.map Prod.fst

def values (m : OrderedMap κ ν) : List ν := m.toList.map Prod.snd

def size (m : OrderedMap κ ν) : Nat := m.toList.length

def isEmpty (m : OrderedMap κ ν) : Bool := m.toList.isEmpty

/-- The pairs that `p` keeps, in their order. -/
def filter (m : OrderedMap κ ν) (p : κ → ν → Bool) : OrderedMap κ ν :=
  ⟨m.toList.filter fun e => p e.1 e.2, by
    have h : ((m.toList.filter fun e => p e.1 e.2).map Prod.fst).Sublist (m.toList.map Prod.fst) :=
      List.Sublist.map _ List.filter_sublist
    exact h.nodup m.nodup⟩

/-- Another value for each key. -/
def mapValues {ω : Type} (m : OrderedMap κ ν) (f : κ → ν → ω) : OrderedMap κ ω :=
  ⟨m.toList.map fun e => (e.1, f e.1 e.2), by
    have h := m.nodup
    simpa [List.map_map, Function.comp_def] using h⟩

variable [DecidableEq κ]

def get? (m : OrderedMap κ ν) (k : κ) : Option ν := findPair? k m.toList

def contains (m : OrderedMap κ ν) (k : κ) : Bool := (m.get? k).isSome

def insert (m : OrderedMap κ ν) (k : κ) (v : ν) : OrderedMap κ ν :=
  ⟨insertPair k v m.toList, nodup_keys_insertPair k v m.toList m.nodup⟩

/-- The map without `k`; the other pairs keep their order. -/
def erase (m : OrderedMap κ ν) (k : κ) : OrderedMap κ ν := m.filter fun j _ => j ≠ k

/-- The pairs put in one after the other, so the last value of a key stands at its first place. -/
def ofList (ps : List (κ × ν)) : OrderedMap κ ν :=
  ps.foldl (fun m p => m.insert p.1 p.2) empty

@[simp] theorem get?_empty (k : κ) : (empty : OrderedMap κ ν).get? k = none := rfl

@[simp] theorem get?_insert (m : OrderedMap κ ν) (k j : κ) (v : ν) :
    (m.insert k v).get? j = if k = j then some v else m.get? j :=
  findPair?_insertPair k j v m.toList

@[simp] theorem get?_emptyCollection (k : κ) : (∅ : OrderedMap κ ν).get? k = none := rfl

theorem contains_insert (m : OrderedMap κ ν) (k j : κ) (v : ν) :
    (m.insert k v).contains j = (decide (k = j) || m.contains j) := by
  unfold contains
  rw [get?_insert]
  by_cases h : k = j <;> simp [h]

theorem keys_insert (m : OrderedMap κ ν) (k : κ) (v : ν) :
    (m.insert k v).keys = if k ∈ m.keys then m.keys else m.keys ++ [k] :=
  keys_insertPair k v m.toList

theorem get?_eq_some_iff (m : OrderedMap κ ν) (k : κ) (v : ν) :
    m.get? k = some v ↔ (k, v) ∈ m.toList := by
  obtain ⟨ps, h⟩ := m
  show findPair? k ps = some v ↔ (k, v) ∈ ps
  induction ps with
  | nil => simp [findPair?]
  | cons p ps ih =>
    obtain ⟨a, b⟩ := p
    rw [List.map_cons, List.nodup_cons] at h
    unfold findPair?
    split
    · next e =>
      have e : a = k := e
      constructor
      · intro hv
        cases hv
        simp [e]
      · intro hm
        rcases List.mem_cons.1 hm with hm | hm
        · cases hm; rfl
        · exact absurd (List.mem_map.2 ⟨_, hm, e.symm⟩) h.1
    · next e =>
      rw [ih h.2, List.mem_cons]
      constructor
      · exact Or.inr
      · rintro (hm | hm)
        · cases hm; exact absurd rfl e
        · exact hm

end OrderedMap

end AudioProject
