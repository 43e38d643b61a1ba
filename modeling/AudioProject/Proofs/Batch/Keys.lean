import AudioProject.Batch.Records
import AudioProject.Proofs.Action
import AudioProject.Proofs.Batch.Blocks
import AudioProject.Proofs.OrderedMap

/-
  The keys of a plan. They get the first ids, one each in their order, if each key comes once
  (`mintKeys_eq_ok`); a key that comes twice is named in the error (`mintKeys_eq_error`). A
  reference names what has it as a key, and only otherwise what has it as an id (`Names`).
-/

namespace AudioProject.Batch

variable {keys keys' : Keys} {k key : String} {ks : List String} {ids ids' : IdSupply}
  {id top : ObjectId} {e : Error}

/-! ## Minting -/

/-- The keys with the ids that are minted for them. -/
def withIds (ids : IdSupply) (ks : List String) : List (String × ObjectId) :=
  (dealt (fun _ => 1) ids.issued ks).map fun p => (p.1, ids.nth p.2)

theorem map_fst_withIds (ids : IdSupply) (ks : List String) :
    (withIds ids ks).map Prod.fst = ks := by
  unfold withIds
  rw [List.map_map]
  exact map_fst_dealt _ ids.issued ks

theorem mintKeys_cons (keys : Keys) (k : String) (ks : List String) (ids : IdSupply) :
    mintKeys keys (k :: ks) ids =
      if keys.contains k then .error (.duplicateKey k) ids.mint.2
      else mintKeys (keys.insert k ids.mint.1) ks ids.mint.2 := by
  show (if keys.contains k = true then _ else _ : Action IdSupply Error Keys) ids.mint.2 = _
  split <;> rfl

theorem mintKeys_eq_ok : mintKeys keys ks ids = .ok keys' ids' ↔
    (keys.keys ++ ks).Nodup ∧ keys'.toList = keys.toList ++ withIds ids ks ∧
      ids' = { ids with issued := ids.issued + ks.length } := by
  induction ks generalizing keys ids with
  | nil =>
    show EStateM.Result.ok keys ids = .ok keys' ids' ↔ _
    rw [EStateM.Result.ok.injEq]
    constructor
    · rintro ⟨rfl, rfl⟩
      have hkeys : (keys.keys ++ []).Nodup := (List.append_nil _).symm ▸ keys.nodup
      exact ⟨hkeys, (List.append_nil _).symm, rfl⟩
    · rintro ⟨-, hlist, rfl⟩
      exact ⟨OrderedMap.ext (by simpa [withIds, dealt] using hlist.symm), rfl⟩
  | cons k ks ih =>
    rw [mintKeys_cons]
    by_cases hk : keys.contains k = true
    · rw [if_pos hk]
      constructor
      · intro h
        cases h
      · rintro ⟨honce, -⟩
        have hmem := (OrderedMap.contains_iff keys k).1 hk
        exact absurd rfl ((List.nodup_append.1 honce).2.2 k hmem k List.mem_cons_self)
    · rw [if_neg hk, ih]
      rw [OrderedMap.contains_iff] at hk
      have hkeys : (keys.insert k ids.mint.1).keys ++ ks = keys.keys ++ k :: ks := by
        rw [OrderedMap.keys_insert, if_neg hk, List.append_assoc, List.singleton_append]
      have hlist : (keys.insert k ids.mint.1).toList ++ withIds ids.mint.2 ks =
          keys.toList ++ withIds ids (k :: ks) := by
        rw [OrderedMap.toList_insert_of_not_mem keys hk, List.append_assoc, List.singleton_append]
        rfl
      have hissued : ids.mint.2.issued + ks.length = ids.issued + (k :: ks).length := by
        rw [List.length_cons, Nat.add_comm ks.length, ← Nat.add_assoc]
        rfl
      rw [hkeys, hlist, hissued]
      rfl

/-- What is wrong is a key that comes again. -/
theorem mintKeys_eq_error (h : mintKeys keys ks ids = .error e ids') :
    ∃ k, e = .duplicateKey k ∧ 2 ≤ (keys.keys ++ ks).count k := by
  induction ks generalizing keys ids with
  | nil => cases h
  | cons k ks ih =>
    rw [mintKeys_cons] at h
    by_cases hk : keys.contains k = true
    · rw [if_pos hk] at h
      cases h
      have hmem := List.count_pos_iff.2 ((OrderedMap.contains_iff keys k).1 hk)
      refine ⟨k, rfl, ?_⟩
      rw [List.count_append, List.count_cons_self]
      omega
    · rw [if_neg hk] at h
      obtain ⟨k', he, hcount⟩ := ih h
      refine ⟨k', he, ?_⟩
      rw [OrderedMap.contains_iff] at hk
      rwa [OrderedMap.keys_insert, if_neg hk, List.append_assoc, List.singleton_append] at hcount

/-- From the start, keys that come once each get ids in turn. -/
theorem mintKeys_empty_eq_ok : mintKeys ∅ ks ids = .ok keys ids' ↔
    ks.Nodup ∧ keys.toList = withIds ids ks ∧
      ids' = { ids with issued := ids.issued + ks.length } := mintKeys_eq_ok

/-- A key has the id at the number that it got. -/
theorem get?_eq_some_iff_mem_dealt (h : keys.toList = withIds ids ks) :
    keys.get? k = some id ↔ ∃ i, (k, i) ∈ dealt (fun _ => 1) ids.issued ks ∧ ids.nth i = id := by
  rw [OrderedMap.get?_eq_some_iff, h, withIds, List.mem_map]
  constructor
  · rintro ⟨⟨k', i⟩, hmem, heq⟩
    obtain ⟨rfl, rfl⟩ := Prod.mk.inj heq
    exact ⟨i, hmem, rfl⟩
  · rintro ⟨i, hmem, rfl⟩
    exact ⟨(k, i), hmem, rfl⟩

/-! ## References -/

/-- A reference stands for the entry with this key, or else for the object with this id. -/
inductive Names (keys : Keys) : String → ObjectId → Prop where
  | entry {key : String} {id : ObjectId} (h : keys.get? key = some id) : Names keys key id
  | object {id : ObjectId} (h : id.text ∉ keys.keys) : Names keys id.text id

theorem resolve_eq_ok : resolve keys key = .ok id ↔ Names keys key id := by
  unfold resolve
  cases hkey : keys.get? key with
  | some id' =>
    constructor
    · intro h
      cases h
      exact .entry hkey
    · intro h
      cases h with
      | entry h => exact congrArg _ (Option.some.inj (hkey.symm.trans h))
      | object h => exact absurd ((OrderedMap.mem_keys_iff _ _).2 ⟨_, hkey⟩) h
  | none =>
    have hnot : key ∉ keys.keys := by
      rw [OrderedMap.mem_keys_iff, hkey]
      rintro ⟨_, ⟨⟩⟩
    cases hid : ObjectId.ofString? key with
    | ok id' =>
      have htext := (ObjectId.ofString?_eq_ok_iff key id').1 hid
      constructor
      · intro h
        cases h
        exact htext ▸ .object (htext ▸ hnot)
      · intro h
        cases h with
        | entry h => cases hkey.symm.trans h
        | object h => exact congrArg _ (ObjectId.ext htext)
    | error why =>
      constructor
      · intro h
        cases h
      · intro h
        cases h with
        | entry h => cases hkey.symm.trans h
        | object h => cases ((ObjectId.ofString?_eq_ok_iff _ _).2 rfl).symm.trans hid

/-- What an entry goes below: what its reference names, or `top` if it has none. -/
def NamesOr (keys : Keys) (top : ObjectId) : Option String → ObjectId → Prop
  | some reference, id => Names keys reference id
  | none, id => id = top

theorem resolveOr_eq_ok {reference? : Option String} :
    resolveOr keys top reference? = .ok id ↔ NamesOr keys top reference? id := by
  cases reference? with
  | none =>
    show Except.ok top = .ok id ↔ id = top
    rw [Except.ok.injEq, eq_comm]
  | some reference => exact resolve_eq_ok

end AudioProject.Batch
