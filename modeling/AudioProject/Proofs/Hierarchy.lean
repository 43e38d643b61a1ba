import AudioProject.Hierarchy
import AudioProject.Proofs.OrderedMap
import Mathlib.Data.List.Sort
import Mathlib.Logic.Relation

/-
  What the parent pointers determine. The ancestors of an id are exactly what one or more pointers
  lead to, although the walk stops where it would repeat itself (`mem_ancestors_iff`), and so are
  the ids that it is a descendant of (`isDescendant_iff`). The child lists hold nothing of their
  own: they are the sorted inverse of the pointers, and stay so when an edge is added
  (`Coherent.addEdge`). So two hierarchies with the same pointers answer alike.
-/

namespace AudioProject

namespace Hierarchy

variable {h h' : Hierarchy}

/-! ## Pointers -/

theorem parent?_addEdge (h : Hierarchy) (child parent id : ObjectId) :
    (h.addEdge child parent).parent? id = if child = id then some parent else h.parent? id :=
  h.parents.get?_insert child id parent

/-- `p` is the parent of `id`. -/
def Under (h : Hierarchy) (id p : ObjectId) : Prop := h.parent? id = some p

/-- One or more pointers lead from `id` to `a`. -/
def Below (h : Hierarchy) : ObjectId → ObjectId → Prop := Relation.TransGen h.Under

theorem Below.of_parent? {id p : ObjectId} (hp : h.parent? id = some p) : h.Below id p :=
  .single hp

/-- What is above an id with a parent is the parent or above it. -/
theorem below_iff_of_parent? {id p a : ObjectId} (hp : h.parent? id = some p) :
    h.Below id a ↔ a = p ∨ h.Below p a := by
  constructor
  · intro hbelow
    rcases Relation.TransGen.head'_iff.1 hbelow with ⟨q, hq, hrest⟩
    obtain rfl : p = q := Option.some.inj (hp.symm.trans hq)
    rcases Relation.reflTransGen_iff_eq_or_transGen.1 hrest with rfl | hrest
    · exact Or.inl rfl
    · exact Or.inr hrest
  · rintro (rfl | hbelow)
    · exact .of_parent? hp
    · exact .head hp hbelow

theorem not_below_of_parent? {id a : ObjectId} (hp : h.parent? id = none) : ¬ h.Below id a := by
  intro hbelow
  obtain ⟨q, hq, -⟩ := Relation.TransGen.head'_iff.1 hbelow
  cases hp.symm.trans hq

/-! ## The walk to the top -/

theorem ancestorsFrom_of_none {seen : List ObjectId} {id : ObjectId} (hp : h.parent? id = none) :
    h.ancestorsFrom seen id = [] := by
  rw [ancestorsFrom]
  split
  · rfl
  · next p hp' => cases hp.symm.trans hp'

theorem ancestorsFrom_of_some {seen : List ObjectId} {id p : ObjectId}
    (hp : h.parent? id = some p) :
    h.ancestorsFrom seen id = if p ∈ seen then [] else p :: h.ancestorsFrom (p :: seen) p := by
  rw [ancestorsFrom]
  split
  · next hp' => cases hp.symm.trans hp'
  · next q hp' =>
    obtain rfl : p = q := Option.some.inj (hp.symm.trans hp')
    rfl

theorem meets_of_none {seen : List ObjectId} {id a : ObjectId} (hp : h.parent? id = none) :
    h.meets seen id a = false := by
  rw [meets]
  split
  · rfl
  · next p hp' => cases hp.symm.trans hp'

theorem meets_of_some {seen : List ObjectId} {id p a : ObjectId} (hp : h.parent? id = some p) :
    h.meets seen id a =
      if p = a then true else if p ∈ seen then false else h.meets (p :: seen) p a := by
  rw [meets]
  split
  · next hp' => cases hp.symm.trans hp'
  · next q hp' =>
    obtain rfl : p = q := Option.some.inj (hp.symm.trans hp')
    rfl

theorem below_of_mem_ancestorsFrom {seen : List ObjectId} {id a : ObjectId}
    (ha : a ∈ h.ancestorsFrom seen id) : h.Below id a := by
  induction seen, id using ancestorsFrom.induct h with
  | case1 seen id hp =>
    rw [ancestorsFrom_of_none hp] at ha
    cases ha
  | case2 seen id p hp hseen =>
    rw [ancestorsFrom_of_some hp, if_pos hseen] at ha
    cases ha
  | case3 seen id p hp hseen ih =>
    rw [ancestorsFrom_of_some hp, if_neg hseen, List.mem_cons] at ha
    exact (below_iff_of_parent? hp).2 (ha.imp_right ih)

/-- A walk that stops has seen all that is above. -/
theorem mem_of_below {seen : List ObjectId} {id a : ObjectId}
    (hseen : ∀ s ∈ seen, s = id ∨ ∃ p ∈ seen, h.parent? s = some p) (hbelow : h.Below id a) :
    a ∈ seen ∨ a ∈ h.ancestorsFrom seen id := by
  induction seen, id using ancestorsFrom.induct h with
  | case1 seen id hp => exact absurd hbelow (not_below_of_parent? hp)
  | case2 seen id p hp hrepeat =>
    -- the pointers of what was seen do not lead out of it
    have hclosed : ∀ s ∈ seen, ∀ q, h.parent? s = some q → q ∈ seen := by
      intro s hs q hq
      rcases hseen s hs with rfl | ⟨p', hp', hparent⟩
      · rwa [← Option.some.inj (hp.symm.trans hq)]
      · rwa [← Option.some.inj (hparent.symm.trans hq)]
    refine Or.inl ?_
    induction hbelow with
    | single hq => rwa [← Option.some.inj (hp.symm.trans hq)]
    | tail _ hq ih => exact hclosed _ ih _ hq
  | case3 seen id p hp hnew ih =>
    rw [ancestorsFrom_of_some hp, if_neg hnew, List.mem_cons]
    have hseen' : ∀ s ∈ p :: seen, s = p ∨ ∃ q ∈ p :: seen, h.parent? s = some q := by
      intro s hs
      rcases List.mem_cons.1 hs with rfl | hs
      · exact Or.inl rfl
      · rcases hseen s hs with rfl | ⟨q, hq, hparent⟩
        · exact Or.inr ⟨p, List.mem_cons_self, hp⟩
        · exact Or.inr ⟨q, List.mem_cons_of_mem _ hq, hparent⟩
    rcases (below_iff_of_parent? hp).1 hbelow with rfl | hbelow
    · exact Or.inr (Or.inl rfl)
    · rcases ih hseen' hbelow with hmem | hmem
      · exact (List.mem_cons.1 hmem).elim (fun e => Or.inr (Or.inl e)) Or.inl
      · exact Or.inr (Or.inr hmem)

/-- The ancestors are what one or more pointers lead to, cycles or not. -/
theorem mem_ancestors_iff {id a : ObjectId} : a ∈ h.ancestors id ↔ h.Below id a := by
  constructor
  · exact below_of_mem_ancestorsFrom
  · intro hbelow
    have hnone : ∀ s ∈ ([] : List ObjectId), s = id ∨ ∃ p ∈ ([] : List ObjectId),
        h.parent? s = some p := by simp
    exact (mem_of_below hnone hbelow).resolve_left List.not_mem_nil

/-- A walk that looks for an id which it has not passed meets it exactly if it would list it. -/
theorem meets_iff {seen : List ObjectId} {id a : ObjectId} (ha : a ∉ seen) :
    h.meets seen id a = true ↔ a ∈ h.ancestorsFrom seen id := by
  induction seen, id using ancestorsFrom.induct h with
  | case1 seen id hp =>
    rw [ancestorsFrom_of_none hp, meets_of_none hp]
    simp
  | case2 seen id p hp hseen =>
    have hother : p ≠ a := fun hsame => ha (hsame ▸ hseen)
    rw [ancestorsFrom_of_some hp, meets_of_some hp, if_pos hseen, if_pos hseen, if_neg hother]
    simp
  | case3 seen id p hp hseen ih =>
    rw [ancestorsFrom_of_some hp, meets_of_some hp, if_neg hseen, if_neg hseen, List.mem_cons]
    by_cases hsame : p = a
    · rw [if_pos hsame]
      exact iff_of_true rfl (Or.inl hsame.symm)
    · rw [if_neg hsame, ih (by simp [Ne.symm hsame, ha]), or_iff_right (Ne.symm hsame)]

/-- Descendants are those that one or more pointers lead up from. -/
theorem isDescendant_iff {id a : ObjectId} : h.isDescendant id a = true ↔ h.Below id a := by
  rw [isDescendant, meets_iff List.not_mem_nil]
  exact mem_ancestors_iff

theorem ancestorsFrom_congr (hsame : ∀ id, h'.parent? id = h.parent? id) (seen : List ObjectId)
    (id : ObjectId) : h'.ancestorsFrom seen id = h.ancestorsFrom seen id := by
  induction seen, id using ancestorsFrom.induct h with
  | case1 seen id hp =>
    rw [ancestorsFrom_of_none hp, ancestorsFrom_of_none ((hsame id).trans hp)]
  | case2 seen id p hp hseen =>
    rw [ancestorsFrom_of_some hp, ancestorsFrom_of_some ((hsame id).trans hp), if_pos hseen,
      if_pos hseen]
  | case3 seen id p hp hseen ih =>
    rw [ancestorsFrom_of_some hp, ancestorsFrom_of_some ((hsame id).trans hp), if_neg hseen,
      if_neg hseen, ih]

/-- The ancestors depend on the pointers only. -/
theorem ancestors_congr (hsame : ∀ id, h'.parent? id = h.parent? id) (id : ObjectId) :
    h'.ancestors id = h.ancestors id :=
  ancestorsFrom_congr hsame [] id

/-! ## The child lists -/

/-- In ascending order, each id once. -/
def Ascending (ids : List ObjectId) : Prop := ids.Pairwise fun a b => a.text < b.text

theorem mem_insertId {id a : ObjectId} {ids : List ObjectId} :
    a ∈ insertId id ids ↔ a = id ∨ a ∈ ids := by
  induction ids with
  | nil => simp [insertId]
  | cons x xs ih =>
    unfold insertId
    split
    · next hx =>
      subst hx
      simp
    · split
      · simp
      · rw [List.mem_cons, ih, List.mem_cons, or_left_comm]

theorem ascending_insertId {id : ObjectId} {ids : List ObjectId} (hids : Ascending ids) :
    Ascending (insertId id ids) := by
  induction ids with
  | nil => exact List.pairwise_singleton _ _
  | cons x xs ih =>
    obtain ⟨hx, hxs⟩ := List.pairwise_cons.1 hids
    unfold insertId
    split
    · exact hids
    next hne =>
    split
    · next hlt =>
      refine List.pairwise_cons.2 ⟨fun a ha => ?_, hids⟩
      rcases List.mem_cons.1 ha with rfl | ha
      · exact hlt
      · exact String.lt_trans hlt (hx a ha)
    · next hge =>
      refine List.pairwise_cons.2 ⟨fun a ha => ?_, ih hxs⟩
      rcases mem_insertId.1 ha with rfl | ha
      · refine Decidable.byContradiction fun hnot => hne (ObjectId.ext ?_)
        exact String.le_antisymm (String.not_lt.1 hnot) (String.not_lt.1 hge)
      · exact hx a ha

/-- Ascending lists with the same members are the same. -/
theorem Ascending.eq_of_mem {xs ys : List ObjectId} (hxs : Ascending xs) (hys : Ascending ys)
    (hmem : ∀ a, a ∈ xs ↔ a ∈ ys) : xs = ys := by
  have : Std.Irrefl fun a b : ObjectId => a.text < b.text := ⟨fun a => String.lt_irrefl a.text⟩
  have : Std.Antisymm fun a b : ObjectId => a.text < b.text :=
    ⟨fun a b hab hba => absurd hab (String.lt_asymm hba)⟩
  exact List.Pairwise.eq_of_mem_iff hxs hys hmem

/-- The child lists say the same as the pointers. -/
structure Coherent (h : Hierarchy) : Prop where
  ascending : ∀ p, Ascending (h.children p)
  mem_iff : ∀ p c, c ∈ h.children p ↔ h.parent? c = some p

theorem Coherent.empty : Coherent {} := by
  constructor
  · intro p
    exact List.Pairwise.nil
  · intro p c
    constructor
    · intro hc
      cases hc
    · intro hp
      cases hp

theorem Coherent.children_addEdge (hh : h.Coherent) (child parent p : ObjectId) :
    (h.addEdge child parent).children p =
      if parent = p then insertId child ((h.children p).filter (· ≠ child))
      else (h.children p).filter (· ≠ child) := by
  -- a list without the child is not changed by taking the child out of it
  have hdetached : ∀ q, ((h.detached child).get? q).getD [] =
      (h.children q).filter (· ≠ child) := by
    intro q
    have hself : h.parent? child ≠ some q →
        (h.children q).filter (· ≠ child) = h.children q := by
      intro hne
      refine List.filter_eq_self.2 fun a ha => decide_eq_true fun heq => hne ?_
      exact (hh.mem_iff q child).1 (heq ▸ ha)
    unfold detached
    cases hold : h.parent? child with
    | none =>
      rw [hself (by rw [hold]; simp)]
      rfl
    | some old =>
      dsimp only
      rw [OrderedMap.get?_insert]
      by_cases hq : old = q
      · subst hq
        rw [if_pos rfl]
        rfl
      · rw [if_neg hq, hself (by rw [hold]; simpa using hq)]
        rfl
  show (((h.detached child).insert parent
    (insertId child (((h.detached child).get? parent).getD []))).get? p).getD [] = _
  rw [OrderedMap.get?_insert]
  by_cases hp : parent = p
  · subst hp
    rw [if_pos rfl, if_pos rfl, hdetached]
    rfl
  · rw [if_neg hp, if_neg hp, hdetached]

theorem Coherent.addEdge (hh : h.Coherent) (child parent : ObjectId) :
    (h.addEdge child parent).Coherent := by
  have hfilter : ∀ p, Ascending ((h.children p).filter (· ≠ child)) := fun p =>
    (hh.ascending p).filter _
  constructor
  · intro p
    rw [hh.children_addEdge]
    split
    · exact ascending_insertId (hfilter p)
    · exact hfilter p
  · intro p c
    rw [hh.children_addEdge, parent?_addEdge]
    by_cases hc : child = c
    · subst hc
      rw [if_pos rfl]
      by_cases hp : parent = p <;> simp [hp, mem_insertId]
    · rw [if_neg hc, ← hh.mem_iff]
      by_cases hp : parent = p <;> simp [hp, mem_insertId, Ne.symm hc]

/-- The children depend on the pointers only. -/
theorem Coherent.children_congr (hh : h.Coherent) (hh' : h'.Coherent)
    (hsame : ∀ id, h'.parent? id = h.parent? id) (p : ObjectId) :
    h'.children p = h.children p := by
  refine (hh'.ascending p).eq_of_mem (hh.ascending p) fun c => ?_
  rw [hh'.mem_iff, hh.mem_iff, hsame]

end Hierarchy

end AudioProject
