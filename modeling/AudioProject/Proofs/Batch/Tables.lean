import AudioProject.Batch.Records
import AudioProject.Proofs.Staging.Tables

/-
  Staging many records. Whether all of them are taken depends on each of them and the store
  (`Staging.Acceptable`), and on whether ids or paths come twice, but not on the order
  (`stageAll_eq_ok`, `Stageable`). The tables, the pending ids and the paths are then read off the
  list of records (`toList_table`, `keys_pending`, `toList_paths`).
-/

namespace AudioProject

namespace Staging

variable {s : Store} {g g' : Staging} {k : Kind} {r : PendingRecord} {path : Option AssetPath}

/-! ## One record -/

/-- What has to hold of a record and the store so that it can be staged at all. -/
structure Acceptable (s : Store) (k : Kind) (r : PendingRecord) : Prop where
  accepts : k.accepts r.object.objectClass = true
  output : ¬ (k = .bus ∧ r.parent? k = none)
  free : s.containsAny r.id = false
  path : k = .assetFolder →
    ∃ p, r.assetPath? = some p ∧ p.isRoot = false ∧ s.assetFolderAt? p = none

/-- The path that a record takes when it is staged. -/
def taken (k : Kind) (r : PendingRecord) : Option AssetPath :=
  if k = .assetFolder then r.assetPath? else none

theorem holder?_eq_none_iff {p : AssetPath} :
    g.holder? s p = none ↔ s.assetFolderAt? p = none ∧ p ∉ g.paths.keys := by
  rw [holder?_eq_none, Option.isSome_eq_false_iff, Option.isNone_iff_eq_none,
    OrderedMap.mem_keys_iff, ← Option.isSome_iff_exists, Option.not_isSome_iff_eq_none]

theorem pathToTake_eq_ok_iff : g.pathToTake s k r = .ok path ↔
    (k = .assetFolder →
      ∃ p, r.assetPath? = some p ∧ p.isRoot = false ∧ s.assetFolderAt? p = none) ∧
      (∀ p ∈ taken k r, p ∉ g.paths.keys) ∧ path = taken k r := by
  unfold taken pathToTake
  by_cases hk : k = .assetFolder
  · rw [if_pos hk, if_pos hk]
    cases hp : r.assetPath? with
    | none => simp [hk]
    | some p =>
      dsimp only
      cases hroot : p.isRoot with
      | true => simp [hk, hroot]
      | false =>
        rw [if_neg Bool.false_ne_true]
        cases hfree : g.holder? s p with
        | some holder =>
          refine ⟨nofun, fun ⟨hplace, hnew, _⟩ => ?_⟩
          obtain ⟨_, ⟨⟩, -, hstore⟩ := hplace hk
          cases hfree.symm.trans (holder?_eq_none_iff.2 ⟨hstore, hnew p rfl⟩)
        | none =>
          have hnone := holder?_eq_none_iff.1 hfree
          rw [Except.ok.injEq, eq_comm]
          simp [hnone, hk, hroot]
  · rw [if_neg hk, if_neg hk, Except.ok.injEq, eq_comm]
    simp [hk]

/-- A record is staged if it is acceptable, and neither its id nor its path is pending. -/
theorem stage_eq_ok_iff : g.stage s k r = .ok g' ↔
    Acceptable s k r ∧ r.id ∉ g.pending.keys ∧ (∀ p ∈ taken k r, p ∉ g.paths.keys) ∧
      g' = g.add k r (taken k r) := by
  have hpending : g.isPending r.id = true ↔ r.id ∈ g.pending.keys := OrderedMap.contains_iff _ _
  rw [stage_passes_iff]
  constructor
  · rintro ⟨haccepts, houtput, ⟨hnew, hfree⟩, path, hpath, rfl⟩
    obtain ⟨hplace, hpaths, rfl⟩ := pathToTake_eq_ok_iff.1 hpath
    refine ⟨⟨haccepts, houtput, hfree, hplace⟩, ?_, hpaths, rfl⟩
    rw [← hpending, hnew]
    exact Bool.false_ne_true
  · rintro ⟨h, hnew, hpaths, rfl⟩
    rw [← hpending, Bool.not_eq_true] at hnew
    exact ⟨h.accepts, h.output, ⟨hnew, h.free⟩, taken k r,
      pathToTake_eq_ok_iff.2 ⟨h.path, hpaths, rfl⟩, rfl⟩

theorem keys_pending_add (h : r.id ∉ g.pending.keys)
    (path : Option AssetPath) : (g.add k r path).pending.keys = g.pending.keys ++ [r.id] := by
  show (g.pending.insert r.id ()).keys = _
  rw [OrderedMap.keys_insert, if_neg h]

theorem keys_paths_add (h : ∀ p ∈ path, p ∉ g.paths.keys) (k : Kind) (r : PendingRecord) :
    (g.add k r path).paths.keys = g.paths.keys ++ path.toList := by
  unfold add
  cases path with
  | none => exact (List.append_nil _).symm
  | some p => exact (OrderedMap.keys_insert _ _ _).trans (if_neg (h p rfl))

end Staging

namespace Batch

open Staging

variable {s : Store} {g g' : Staging} {qs : List (Kind × PendingRecord)}

/-! ## All of them -/

/-- What is staged of records that are all taken. -/
def stagedOf (g : Staging) (qs : List (Kind × PendingRecord)) : Staging :=
  qs.foldl (fun g q => g.add q.1 q.2 (taken q.1 q.2)) g

theorem stageAll_eq_ok : stageAll s g qs = .ok g' ↔
    (∀ q ∈ qs, Acceptable s q.1 q.2) ∧ (g.pending.keys ++ qs.map fun q => q.2.id).Nodup ∧
      (g.paths.keys ++ qs.filterMap fun q => taken q.1 q.2).Nodup ∧ g' = stagedOf g qs := by
  induction qs generalizing g with
  | nil =>
    show Except.ok g = .ok g' ↔ _
    have hpending : (g.pending.keys ++ []).Nodup := (List.append_nil _).symm ▸ g.pending.nodup
    have hpaths : (g.paths.keys ++ []).Nodup := (List.append_nil _).symm ▸ g.paths.nodup
    rw [Except.ok.injEq, eq_comm]
    exact ⟨fun h => ⟨nofun, hpending, hpaths, h⟩, fun h => h.2.2.2⟩
  | cons q qs ih =>
    obtain ⟨k, r⟩ := q
    have hcons : ((k, r) :: qs).filterMap (fun q => taken q.1 q.2) =
        (taken k r).toList ++ qs.filterMap fun q => taken q.1 q.2 := by
      cases h : taken k r <;> simp [h]
    rw [List.forall_mem_cons, List.map_cons, hcons, stageAll]
    constructor
    · intro h
      split at h
      · next hstage =>
        obtain ⟨hacceptable, hid, hpath, rfl⟩ := stage_eq_ok_iff.1 hstage
        obtain ⟨hall, hids, hpaths, rfl⟩ := ih.1 h
        rw [keys_pending_add hid, List.append_assoc] at hids
        rw [keys_paths_add hpath, List.append_assoc] at hpaths
        exact ⟨⟨hacceptable, hall⟩, hids, hpaths, rfl⟩
      · cases h
    · rintro ⟨⟨hacceptable, hall⟩, hids, hpaths, rfl⟩
      have hid : r.id ∉ g.pending.keys := fun hmem =>
        (List.nodup_append.1 hids).2.2 _ hmem _ List.mem_cons_self rfl
      have hpath : ∀ p ∈ taken k r, p ∉ g.paths.keys := fun p hp hmem =>
        (List.nodup_append.1 hpaths).2.2 _ hmem _
          (List.mem_append_left _ (Option.mem_toList.2 hp)) rfl
      rw [stage_eq_ok_iff.2 ⟨hacceptable, hid, hpath, rfl⟩]
      refine ih.2 ⟨hall, ?_, ?_, rfl⟩
      · rwa [keys_pending_add hid, List.append_assoc]
      · rwa [keys_paths_add hpath, List.append_assoc]

/-- Records that can be staged together, in whatever order. -/
structure Stageable (s : Store) (qs : List (Kind × PendingRecord)) : Prop where
  acceptable : ∀ q ∈ qs, Acceptable s q.1 q.2
  ids : (qs.map fun q => q.2.id).Nodup
  paths : (qs.filterMap fun q => taken q.1 q.2).Nodup

theorem stageAll_empty_eq_ok : stageAll s {} qs = .ok g ↔ Stageable s qs ∧ g = stagedOf {} qs := by
  rw [stageAll_eq_ok]
  constructor
  · rintro ⟨hall, hids, hpaths, hg⟩
    exact ⟨⟨hall, hids, hpaths⟩, hg⟩
  · rintro ⟨⟨hall, hids, hpaths⟩, hg⟩
    exact ⟨hall, hids, hpaths, hg⟩

theorem table_stagedOf (g : Staging) (qs : List (Kind × PendingRecord)) (k : Kind) :
    (stagedOf g qs).table k = ((qs.filter fun q => q.1 = k).map fun q => (q.2.id, q.2)).foldl
      (fun m p => m.insert p.1 p.2) (g.table k) := by
  induction qs generalizing g with
  | nil => rfl
  | cons q qs ih =>
    show (stagedOf (g.add q.1 q.2 (taken q.1 q.2)) qs).table k = _
    rw [ih, table_add]
    by_cases hk : q.1 = k
    · rw [if_pos hk, List.filter_cons_of_pos (by simpa using hk)]
      rfl
    · rw [if_neg hk, List.filter_cons_of_neg (by simpa using hk)]

theorem pending_stagedOf (g : Staging) (qs : List (Kind × PendingRecord)) :
    (stagedOf g qs).pending = (qs.map fun q => (q.2.id, ())).foldl
      (fun m p => m.insert p.1 p.2) g.pending := by
  induction qs generalizing g with
  | nil => rfl
  | cons q qs ih => exact ih _

theorem paths_stagedOf (g : Staging) (qs : List (Kind × PendingRecord)) :
    (stagedOf g qs).paths =
      (qs.filterMap fun q => (taken q.1 q.2).map fun p => (p, q.2.id)).foldl
        (fun m p => m.insert p.1 p.2) g.paths := by
  induction qs generalizing g with
  | nil => rfl
  | cons q qs ih =>
    show (stagedOf (g.add q.1 q.2 (taken q.1 q.2)) qs).paths = _
    rw [ih]
    unfold add enter list reserve
    cases h : taken q.1 q.2 <;> simp [h]

namespace Stageable

theorem toList_table (h : Stageable s qs) (k : Kind) : ((stagedOf {} qs).table k).toList =
    (qs.filter fun q => q.1 = k).map fun q => (q.2.id, q.2) := by
  have hempty : ({} : Staging).table k = ∅ := by cases k <;> rfl
  rw [table_stagedOf, hempty]
  refine OrderedMap.toList_foldl_insert _ ∅ ?_
  show (((qs.filter fun q => q.1 = k).map fun q => (q.2.id, q.2)).map Prod.fst).Nodup
  rw [List.map_map]
  exact (List.filter_sublist.map _).nodup h.ids

theorem keys_pending (h : Stageable s qs) :
    (stagedOf {} qs).pending.keys = qs.map fun q => q.2.id := by
  have hids : (qs.map fun q => (q.2.id, ())).map Prod.fst = qs.map fun q => q.2.id := by
    rw [List.map_map]
    rfl
  have hlist := OrderedMap.toList_foldl_insert (qs.map fun q => (q.2.id, ())) ∅
    (show (List.map Prod.fst _).Nodup from hids ▸ h.ids)
  rw [pending_stagedOf, ← hids]
  exact congrArg (List.map Prod.fst) hlist

theorem toList_paths (h : Stageable s qs) : (stagedOf {} qs).paths.toList =
    qs.filterMap fun q => (taken q.1 q.2).map fun p => (p, q.2.id) := by
  rw [paths_stagedOf]
  refine OrderedMap.toList_foldl_insert _ ∅ ?_
  show (List.map Prod.fst (qs.filterMap _)).Nodup
  rw [List.map_filterMap]
  simpa [Function.comp_def] using h.paths

theorem size (h : Stageable s qs) : (stagedOf {} qs).size = qs.length := by
  have hlength := congrArg List.length h.keys_pending
  rwa [OrderedMap.keys, List.length_map, List.length_map] at hlength

theorem values_table (h : Stageable s qs) (k : Kind) :
    ((stagedOf {} qs).table k).values = (qs.filter fun q => q.1 = k).map Prod.snd := by
  rw [OrderedMap.values, h.toList_table, List.map_map]
  rfl

end Stageable

end Batch

end AudioProject
