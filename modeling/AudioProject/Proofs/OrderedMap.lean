import AudioProject.OrderedMap
import Mathlib.Data.List.Nodup
import Mathlib.Data.List.Pairwise

/-
  What insertions and removals make of an ordered map. A new key is appended and an old one is
  overwritten where it stands, so pairs with new and distinct keys come to stand behind the map
  in their order (`toList_foldl_insert`). A removal leaves the other keys as they were
  (`get?_erase`).
-/

namespace AudioProject.OrderedMap

variable {κ ν : Type} [DecidableEq κ]

theorem toList_insert_of_not_mem (m : OrderedMap κ ν) {k : κ} (h : k ∉ m.keys) (v : ν) :
    (m.insert k v).toList = m.toList ++ [(k, v)] := by
  obtain ⟨ps, hps⟩ := m
  show insertPair k v ps = ps ++ [(k, v)]
  replace h : k ∉ ps.map Prod.fst := h
  clear hps
  induction ps with
  | nil => rfl
  | cons p ps ih =>
    rw [List.map_cons, List.mem_cons, not_or] at h
    rw [insertPair, if_neg (Ne.symm h.1), ih h.2]
    rfl

theorem get?_eq_none_of_not_mem (m : OrderedMap κ ν) {k : κ} (h : k ∉ m.keys) :
    m.get? k = none := by
  cases hv : m.get? k with
  | none => rfl
  | some v => exact absurd (List.mem_map_of_mem ((get?_eq_some_iff m k v).1 hv)) h

theorem insert_insert (m : OrderedMap κ ν) (k : κ) (v w : ν) :
    (m.insert k v).insert k w = m.insert k w := by
  apply ext
  obtain ⟨ps, hps⟩ := m
  show insertPair k w (insertPair k v ps) = insertPair k w ps
  clear hps
  induction ps with
  | nil => simp [insertPair]
  | cons p ps ih =>
    by_cases hp : p.1 = k
    · simp [insertPair, hp]
    · simp [insertPair, hp, ih]

/-- Pairs with new and distinct keys are appended one after the other. -/
theorem toList_foldl_insert (ps : List (κ × ν)) (m : OrderedMap κ ν)
    (h : ((m.toList ++ ps).map Prod.fst).Nodup) :
    (ps.foldl (fun m p => m.insert p.1 p.2) m).toList = m.toList ++ ps := by
  induction ps generalizing m with
  | nil => simp
  | cons p ps ih =>
    have hnew : p.1 ∉ m.keys := by
      rw [List.map_append, List.nodup_append] at h
      intro hmem
      exact h.2.2 _ hmem _ (by simp) rfl
    have hsplit : (m.insert p.1 p.2).toList ++ ps = m.toList ++ p :: ps := by
      rw [toList_insert_of_not_mem m hnew]
      simp
    rw [List.foldl_cons, ih _ (hsplit ▸ h), hsplit]

/-- A map is made again by putting in its pairs in their order. -/
theorem ofList_toList (m : OrderedMap κ ν) : ofList m.toList = m :=
  ext (toList_foldl_insert m.toList empty m.nodup)

/-- An old key is overwritten where it stands. -/
theorem toList_insert_of_get? {m : OrderedMap κ ν} {k : κ} {w : ν} (h : m.get? k = some w) (v : ν) :
    (m.insert k v).toList = m.toList.map fun p => if p.1 = k then (k, v) else p := by
  obtain ⟨ps, hps⟩ := m
  replace h : findPair? k ps = some w := h
  show insertPair k v ps = ps.map fun p => if p.1 = k then (k, v) else p
  induction ps with
  | nil => cases h
  | cons p ps ih =>
    rw [List.map_cons, List.nodup_cons] at hps
    rw [insertPair, List.map_cons]
    by_cases hp : p.1 = k
    · have hrest : ps.map (fun p => if p.1 = k then (k, v) else p) = ps := by
        refine (List.map_congr_left fun q hq => if_neg fun hk => hps.1 ?_).trans (List.map_id ps)
        exact List.mem_map.2 ⟨q, hq, hk.trans hp.symm⟩
      rw [if_pos hp, if_pos hp, hrest]
    · rw [if_neg hp, if_neg hp, ih hps.2 (by rwa [findPair?, if_neg hp] at h)]

/-- Pairs with distinct keys make the map of just these pairs. -/
theorem toList_ofList {ps : List (κ × ν)} (h : (ps.map Prod.fst).Nodup) : (ofList ps).toList = ps :=
  toList_foldl_insert ps empty h

theorem keys_prefix_insert (m : OrderedMap κ ν) (k : κ) (v : ν) : m.keys <+: (m.insert k v).keys := by
  rw [keys_insert]
  split
  · exact List.prefix_rfl
  · exact List.prefix_append _ _

theorem keys_mapValues {κ ν ω : Type} (m : OrderedMap κ ν) (f : κ → ν → ω) :
    (m.mapValues f).keys = m.keys := by
  unfold keys mapValues
  rw [List.map_map]
  rfl

/-- Where the values are distinct, a value has one key. -/
theorem eq_of_get?_of_nodup_values {m : OrderedMap κ ν} (h : m.values.Nodup) {j k : κ} {v : ν}
    (hj : m.get? j = some v) (hk : m.get? k = some v) : j = k :=
  congrArg Prod.fst (List.inj_on_of_nodup_map h ((get?_eq_some_iff m j v).1 hj)
    ((get?_eq_some_iff m k v).1 hk) rfl)

theorem mem_filterMap_values {α : Type} (m : OrderedMap κ ν) (f : ν → Option α) (a : α) :
    a ∈ m.values.filterMap f ↔ ∃ k v, m.get? k = some v ∧ f v = some a := by
  simp only [values, List.filterMap_map, List.mem_filterMap, Function.comp_apply, Prod.exists,
    get?_eq_some_iff]

/-- What is computed from the values is distinct if no two keys give the same. -/
theorem nodup_filterMap_values {α : Type} (m : OrderedMap κ ν) (f : ν → Option α) :
    (m.values.filterMap f).Nodup ↔ ∀ j k v w a, m.get? j = some v → m.get? k = some w →
      f v = some a → f w = some a → j = k := by
  have hkeys : m.toList.Pairwise fun p q => p.1 ≠ q.1 := List.pairwise_map.1 m.nodup
  rw [values, List.filterMap_map, List.Nodup, List.pairwise_filterMap]
  simp only [get?_eq_some_iff, Function.comp_apply]
  constructor
  · intro h j k v w a hj hk hv hw
    by_contra hne
    have hsymm : Std.Symm fun p q : κ × ν => ∀ b, f p.2 = some b → ∀ c, f q.2 = some c → b ≠ c :=
      ⟨fun p q hpq b hb c hc hbc => hpq c hc b hb hbc.symm⟩
    exact h.forall hj hk (fun heq => hne (congrArg Prod.fst heq)) a hv a hw rfl
  · intro h
    refine hkeys.imp_of_mem fun {p q} hp hq hne b hb c hc hbc => ?_
    subst hbc
    exact hne (h p.1 q.1 p.2 q.2 b hp hq hb hc)

/-! ## Keys and removals -/

theorem mem_keys_iff (m : OrderedMap κ ν) (k : κ) : k ∈ m.keys ↔ ∃ v, m.get? k = some v := by
  constructor
  · intro h
    obtain ⟨p, hp, rfl⟩ := List.mem_map.1 h
    exact ⟨p.2, (get?_eq_some_iff m p.1 p.2).2 hp⟩
  · intro h'
    obtain ⟨v, hv⟩ := h'
    exact List.mem_map_of_mem ((get?_eq_some_iff m k v).1 hv)

theorem contains_iff (m : OrderedMap κ ν) (k : κ) : m.contains k = true ↔ k ∈ m.keys := by
  rw [mem_keys_iff, contains, Option.isSome_iff_exists]

theorem mem_values_of_get? {m : OrderedMap κ ν} {k : κ} {v : ν} (h : m.get? k = some v) :
    v ∈ m.values := List.mem_map_of_mem ((get?_eq_some_iff m k v).1 h)

theorem contains_of_get? {m : OrderedMap κ ν} {k : κ} {v : ν} (h : m.get? k = some v) :
    m.contains k = true := by
  rw [contains, h]
  rfl

theorem get?_filter (m : OrderedMap κ ν) (p : κ → ν → Bool) (k : κ) :
    (m.filter p).get? k = (m.get? k).filter (p k) := by
  apply Option.ext
  intro v
  rw [get?_eq_some_iff, Option.filter_eq_some_iff, get?_eq_some_iff]
  show (k, v) ∈ m.toList.filter (fun e => p e.1 e.2) ↔ _
  rw [List.mem_filter]

theorem get?_erase (m : OrderedMap κ ν) (k j : κ) :
    (m.erase k).get? j = if k = j then none else m.get? j := by
  unfold erase
  rw [get?_filter]
  by_cases h : k = j
  · subst h
    cases m.get? k <;> simp
  · cases m.get? j <;> simp [h, Ne.symm h]

theorem toList_erase (m : OrderedMap κ ν) (k : κ) :
    (m.erase k).toList = m.toList.filter fun e => decide (e.1 ≠ k) := rfl

/-- A removed pair leaves those before it and those behind it, none of which has its key. -/
theorem toList_erase_of_get? {m : OrderedMap κ ν} {k : κ} {v : ν} (h : m.get? k = some v) :
    ∃ front back, m.toList = front ++ (k, v) :: back ∧ (m.erase k).toList = front ++ back ∧
      ∀ p ∈ front ++ back, p.1 ≠ k := by
  obtain ⟨front, back, hlist⟩ := List.append_of_mem ((get?_eq_some_iff m k v).1 h)
  have hother : ∀ p ∈ front ++ back, p.1 ≠ k := by
    have hnodup := m.nodup
    rw [hlist, List.map_append, List.map_cons, List.nodup_append, List.nodup_cons] at hnodup
    obtain ⟨-, ⟨hback, -⟩, hfront⟩ := hnodup
    intro p hp hsame
    subst hsame
    rcases List.mem_append.1 hp with hp | hp
    · exact hfront _ (List.mem_map_of_mem hp) _ List.mem_cons_self rfl
    · exact hback (List.mem_map.2 ⟨p, hp, rfl⟩)
  refine ⟨front, back, hlist, ?_, hother⟩
  have hself : (front ++ back).filter (fun p => decide (p.1 ≠ k)) = front ++ back :=
    List.filter_eq_self.2 fun p hp => by simp [hother p hp]
  rw [toList_erase, hlist, List.filter_append, List.filter_cons_of_neg (by simp),
    ← List.filter_append, hself]

/-! ## Maps with the same values -/

theorem get?_foldl_insert (ps : List (κ × ν)) (m : OrderedMap κ ν) (k : κ) :
    (ps.foldl (fun m p => m.insert p.1 p.2) m).get? k = ((ofList ps).get? k).or (m.get? k) := by
  induction ps generalizing m with
  | nil => rfl
  | cons p ps ih =>
    have hcons : (ofList (p :: ps)).get? k =
        ((ofList ps).get? k).or ((empty.insert p.1 p.2).get? k) := ih _
    rw [List.foldl_cons, ih, hcons, Option.or_assoc, get?_insert, get?_insert]
    by_cases hp : p.1 = k <;> simp [hp]

/-- Of pairs with the same key the last one counts. -/
theorem get?_ofList_append (ps qs : List (κ × ν)) (k : κ) :
    (ofList (ps ++ qs)).get? k = ((ofList qs).get? k).or ((ofList ps).get? k) := by
  show ((ps ++ qs).foldl (fun m p => m.insert p.1 p.2) empty).get? k = _
  rw [List.foldl_append, get?_foldl_insert]
  rfl

theorem get?_ofList_nil (k : κ) : (ofList ([] : List (κ × ν))).get? k = none := rfl

theorem get?_ofList_cons (p : κ × ν) (ps : List (κ × ν)) (k : κ) :
    (ofList (p :: ps)).get? k = ((ofList ps).get? k).or (if p.1 = k then some p.2 else none) := by
  show (ps.foldl (fun m p => m.insert p.1 p.2) (empty.insert p.1 p.2)).get? k = _
  rw [get?_foldl_insert, get?_insert, get?_empty]

theorem get?_ofList_eq_none {ps : List (κ × ν)} {k : κ} (h : ∀ p ∈ ps, p.1 ≠ k) :
    (ofList ps).get? k = none := by
  induction ps with
  | nil => rfl
  | cons p ps ih =>
    rw [get?_ofList_cons, ih fun q hq => h q (List.mem_cons_of_mem _ hq),
      if_neg (h p List.mem_cons_self)]
    rfl

theorem mem_of_get?_ofList {ps : List (κ × ν)} {k : κ} {v : ν}
    (h : (ofList ps).get? k = some v) : (k, v) ∈ ps := by
  induction ps with
  | nil => cases h
  | cons p ps ih =>
    rw [get?_ofList_cons, Option.or_eq_some_iff] at h
    rcases h with h | ⟨-, h⟩
    · exact List.mem_cons_of_mem _ (ih h)
    · by_cases hk : p.1 = k
      · rw [if_pos hk] at h
        rw [← hk, ← Option.some.inj h]
        exact List.mem_cons_self
      · rw [if_neg hk] at h
        cases h

theorem exists_get?_ofList {ps : List (κ × ν)} {p : κ × ν} (h : p ∈ ps) :
    ∃ v, (ofList ps).get? p.1 = some v := by
  induction ps with
  | nil => cases h
  | cons q ps ih =>
    rw [get?_ofList_cons]
    rcases List.mem_cons.1 h with rfl | h
    · rw [if_pos rfl]
      cases (ofList ps).get? p.1 with
      | none => exact ⟨p.2, rfl⟩
      | some v => exact ⟨v, rfl⟩
    · obtain ⟨v, hv⟩ := ih h
      rw [hv]
      exact ⟨v, rfl⟩

theorem filter_insert (m : OrderedMap κ ν) (k : κ) (v : ν) (p : κ → Bool) :
    (m.insert k v).filter (fun j _ => p j) =
      if p k then (m.filter fun j _ => p j).insert k v else m.filter fun j _ => p j := by
  have hlist : ∀ ps : List (κ × ν), (insertPair k v ps).filter (fun e => p e.1) =
      if p k then insertPair k v (ps.filter fun e => p e.1) else ps.filter fun e => p e.1 := by
    intro ps
    induction ps with
    | nil => cases hk : p k <;> simp [insertPair, hk]
    | cons q ps ih =>
      by_cases hq : q.1 = k
      · cases hk : p k <;> simp [insertPair, hq, hk]
      · cases hkept : p q.1 <;> cases hk : p k <;> simp [insertPair, hq, hkept, hk, ih]
  apply ext
  have hpairs := hlist m.toList
  split
  · next hk => rwa [if_pos hk] at hpairs
  · next hk => rwa [if_neg hk] at hpairs

/-- Pairs that are left out because of their keys are those that the map would leave out. -/
theorem ofList_filter (ps : List (κ × ν)) (p : κ → Bool) :
    ofList (ps.filter fun e => p e.1) = (ofList ps).filter fun j _ => p j := by
  have hfold : ∀ m : OrderedMap κ ν,
      (ps.filter fun e => p e.1).foldl (fun m e => m.insert e.1 e.2) (m.filter fun j _ => p j) =
        (ps.foldl (fun m e => m.insert e.1 e.2) m).filter fun j _ => p j := by
    induction ps with
    | nil => exact fun _ => rfl
    | cons e ps ih =>
      intro m
      rw [List.foldl_cons, ← ih, filter_insert, List.filter_cons]
      cases he : p e.1 <;> rfl
  exact hfold empty

theorem get?_mapValues {ω : Type} (m : OrderedMap κ ν) (f : κ → ν → ω) (k : κ) :
    (m.mapValues f).get? k = (m.get? k).map (f k) := by
  apply Option.ext
  intro w
  rw [get?_eq_some_iff, Option.map_eq_some_iff]
  constructor
  · intro h
    obtain ⟨⟨j, v⟩, hp, heq⟩ := List.mem_map.1 h
    obtain ⟨rfl, rfl⟩ := Prod.mk.inj heq
    exact ⟨v, (get?_eq_some_iff m j v).2 hp, rfl⟩
  · intro h'
    obtain ⟨v, hv, rfl⟩ := h'
    exact List.mem_map.2 ⟨(k, v), (get?_eq_some_iff m k v).1 hv, rfl⟩

/-- Maps that agree on every key have the same values, each as often. -/
theorem perm_values {m n : OrderedMap κ ν} (h : ∀ k, m.get? k = n.get? k) :
    m.values.Perm n.values := by
  have hnodup : ∀ m : OrderedMap κ ν, m.toList.Nodup := fun m =>
    List.Pairwise.of_map Prod.fst (fun _ _ hne heq => hne (heq ▸ rfl)) m.nodup
  refine List.Perm.map _ ((List.perm_ext_iff_of_nodup (hnodup m) (hnodup n)).2 ?_)
  intro h'
  obtain ⟨k, v⟩ := h'
  rw [← get?_eq_some_iff, ← get?_eq_some_iff, h]

end AudioProject.OrderedMap
