import AudioProject.Proofs.Staging.ParentFirst

/-
  What is staged after any calls, with whichever stores and hosts and whatever they come to
  (`Calls`). The tables and the pending ids are kept in step (`Sound`): each pending id is in
  one table, and the tables together are what is pending. The entry that a pending record will have
  in the index names the parent that its readiness depends on (`entry_readsLike`), and the ids of a
  kind stand in the order in which they were staged (`ordered_of_calls`).
-/

namespace AudioProject

open Session Store

/-! ## What readiness depends on -/

/-- Whether the parent that an entry names is in the index, if it names one. The path of an asset
folder names its parent. -/
def Store.awaits (s : Store) (k : Kind) (e : IndexEntry) : Bool :=
  if k = .assetFolder then
    match e.assetPath?.bind AssetPath.parent? with
    | some parent => parent.isRoot || (s.assetFolderAt? parent).isSome
    | none => false
  else
    match e.parent? with
    | some parent => s.contains k parent
    | none => true

namespace Staging

variable {g g' : Staging} {s : Store} {k : Kind} {r : PendingRecord} {id : ObjectId}
  {e : IndexEntry}

/-- An entry is read from its record: it names the same parent, or the same path. -/
structure ReadsLike (k : Kind) (r : PendingRecord) (e : IndexEntry) : Prop where
  id : e.id = r.id
  parent : k ≠ .assetFolder → e.parent? = r.parent? k
  path : k = .assetFolder → e.assetPath? = r.assetPath?
  valid : k = .assetFolder → ∃ p, r.assetPath? = some p
  ready : ∀ s, isReady s k r = s.awaits k e

/-- Outside asset folders the entry of an object has the parent that its edge leads to. -/
theorem parent?_entry (hclass : k.accepts r.object.objectClass = true) (hk : k ≠ .assetFolder)
    (he : IndexEntry.ofObject? k r.object = some e) : e.parent? = r.parent? k := by
  unfold IndexEntry.ofObject? IndexEntry.position? at he
  rw [if_neg (IndexEntry.masterClass?_ne hclass), if_pos hclass] at he
  unfold PendingRecord.parent?
  cases hedge : k.parentEdge? with
  | none =>
    cases k with
    | assetFolder => exact absurd rfl hk
    | eventFolder => cases hedge
    | bank => cases hedge
    | bus => cases hedge
  | some edge =>
    rw [hedge] at he
    rw [Option.bind_some]
    dsimp only at he
    cases hparent : r.object.singleEdge? edge with
    | none =>
      rw [hparent] at he
      obtain rfl := Option.some.inj he
      rfl
    | some parent =>
      rw [hparent] at he
      obtain rfl := Option.some.inj he
      rfl

theorem entry_readsLike (h : Admitted k r) :
    ∃ e, IndexEntry.ofObject? k r.object = some e ∧ ReadsLike k r e := by
  obtain ⟨e, he, hpath⟩ := PendingRecord.exists_entry h.accepts h.placed
  have hparent : k ≠ .assetFolder → e.parent? = r.parent? k := fun hk =>
    parent?_entry h.accepts hk he
  refine ⟨e, he, IndexEntry.id_ofObject? he, hparent, fun hk => ?_, h.placed, fun s => ?_⟩
  · rw [hpath, if_pos hk]
  · unfold isReady Store.awaits
    by_cases hk : k = .assetFolder
    · rewrite [if_pos hk, if_pos hk, hpath, if_pos hk]
      cases r.assetPath?.bind AssetPath.parent? <;> rfl
    · rewrite [if_neg hk, if_neg hk, hparent hk]
      cases r.parent? k <;> rfl

/-- The entries of a kind are those of its pending records, one for each in staging order. -/
theorem Sound.entries (h : g.Sound) (k : Kind) : (g.entries k).map IndexEntry.id = g.ids k := by
  have hentry : ∀ p ∈ (g.table k).toList,
      (IndexEntry.ofObject? k p.2.object).map IndexEntry.id = some p.1 := by
    intro p hp
    have hr : g.get? k p.1 = some p.2 := (get?_eq_some_iff g k p.1 p.2).2 hp
    obtain ⟨e, he, hreads⟩ := entry_readsLike (h.admitted k p.1 p.2 hr)
    rw [he, Option.map_some, hreads.id, h.keyed k p.1 p.2 hr]
  unfold Staging.entries ids OrderedMap.values OrderedMap.keys
  rw [List.map_filterMap, List.filterMap_map]
  exact (List.filterMap_congr hentry).trans (congrFun List.filterMap_eq_map _)

/-! ## The pending ids and the tables -/

theorem Sound.isPending_iff (h : g.Sound) : g.isPending id = true ↔ ∃ k, id ∈ g.ids k := by
  rw [h.listed]
  exact exists_congr fun k => (mem_ids_iff g k id).symm

theorem Sound.existsUnique_table (h : g.Sound) (hid : g.isPending id = true) :
    ∃! k, id ∈ g.ids k := by
  obtain ⟨k, hk⟩ := h.isPending_iff.1 hid
  refine ⟨k, hk, fun j hj => ?_⟩
  obtain ⟨r, hr⟩ := (mem_ids_iff g k id).1 hk
  obtain ⟨q, hq⟩ := (mem_ids_iff g j id).1 hj
  exact h.single j k id q r hq hr

/-- The pending ids are those of all tables together, each of them once. -/
theorem Sound.perm_pending (h : g.Sound) : g.pending.keys.Perm (Kind.all.flatMap g.ids) := by
  refine (List.perm_ext_iff_of_nodup g.pending.nodup ?_).2 fun id => ?_
  · refine List.nodup_flatMap.2 ⟨fun k _ => (g.table k).nodup, ?_⟩
    have hkinds : Kind.all.Pairwise (· ≠ ·) := by decide
    refine hkinds.imp fun {j k} hne id hj hk => ?_
    obtain ⟨r, hr⟩ := (mem_ids_iff g j id).1 hj
    obtain ⟨q, hq⟩ := (mem_ids_iff g k id).1 hk
    exact hne (h.single j k id r q hr hq)
  · rw [List.mem_flatMap]
    refine ((g.pending.contains_iff id).symm.trans h.isPending_iff).trans ?_
    exact exists_congr fun k => (and_iff_right (Kind.mem_all k)).symm

theorem Sound.size_eq (h : g.Sound) : g.size = (Kind.all.flatMap g.ids).length := by
  have hlength := h.perm_pending.length_eq
  rwa [OrderedMap.keys, List.length_map] at hlength

/-! ## Calls -/

/-- Every check comes before the first change. -/
theorem attempt_eq_error {e : Error} (h : attempt s k r g = .error e g') : g' = g := by
  rw [attempt_eq] at h
  split at h
  · exact (EStateM.Result.error.inj h).2.symm
  split at h
  · exact (EStateM.Result.error.inj h).2.symm
  split at h
  · exact (EStateM.Result.error.inj h).2.symm
  split at h
  · cases h
  · exact (EStateM.Result.error.inj h).2.symm

/-- What is staged after calls in turn, and which records were staged, the last of them in front. -/
inductive Calls : List (Kind × ObjectId) → Staging → Prop where
  | none : Calls [] {}
  | staged {past : List (Kind × ObjectId)} {g g' : Staging} {s : Store} {k : Kind}
    {r : PendingRecord} (h : Calls past g) (hcall : attempt s k r g = .ok () g') :
    Calls ((k, r.id) :: past) g'
  | refused {past : List (Kind × ObjectId)} {g g' : Staging} {s : Store} {k : Kind}
    {r : PendingRecord} {e : Error} (h : Calls past g) (hcall : attempt s k r g = .error e g') :
    Calls past g'
  | commitAll {past : List (Kind × ObjectId)} {g : Staging} (h : Calls past g) (host : Host)
    (s : Store) : Calls past (commitAll.after ⟨host, s, g⟩).staging
  | discardAll {past : List (Kind × ObjectId)} {g : Staging} (h : Calls past g) :
    Calls past g.discardAll.2

variable {past : List (Kind × ObjectId)}

theorem sound_commitAll (h : g.Sound) (host : Host) (s : Store) :
    (commitAll.after ⟨host, s, g⟩).staging.Sound :=
  Commit.sound_of_steps (x := ⟨host, s, g⟩) (steps_commitAll_of_sound h) h

theorem sound_of_calls (h : Calls past g) : g.Sound := by
  induction h with
  | none => exact .empty
  | staged _ hcall ih => exact ih.stage (attempt_eq_ok_iff.1 hcall)
  | refused _ hcall ih =>
    rw [attempt_eq_error hcall]
    exact ih
  | commitAll _ host s ih => exact sound_commitAll ih host s
  | discardAll => exact .empty

/-! ### The order of the ids -/

theorem ids_sublist_of_steps {x y : Session} (h : Steps x y) (k : Kind) :
    (y.staging.ids k).Sublist (x.staging.ids k) := by
  induction h with
  | refl => exact .refl _
  | idle _ last ih =>
    rw [last.staging]
    exact ih
  | write _ last ih =>
    rw [last.staging]
    exact (ids_take _ _ _ _).trans ih

/-- The ids of a kind were staged one after the other. -/
structure Ordered (past : List (Kind × ObjectId)) (k : Kind) (ids : List ObjectId) : Prop where
  staged : ∀ id ∈ ids, (k, id) ∈ past
  later : ids.Pairwise fun a b => past.idxOf (k, b) < past.idxOf (k, a)

theorem Ordered.sublist {ids ids' : List ObjectId} (h : Ordered past k ids)
    (hsub : ids'.Sublist ids) : Ordered past k ids' :=
  ⟨fun id hid => h.staged id (hsub.subset hid), h.later.sublist hsub⟩

/-- Another record moves those that were staged before one back. -/
theorem Ordered.cons {ids : List ObjectId} {p : Kind × ObjectId} (h : Ordered past k ids)
    (hnew : ∀ id ∈ ids, p ≠ (k, id)) : Ordered (p :: past) k ids := by
  refine ⟨fun id hid => List.mem_cons_of_mem _ (h.staged id hid), ?_⟩
  refine h.later.imp_of_mem fun {a b} ha hb hab => ?_
  rw [List.idxOf_cons_ne _ (hnew a ha), List.idxOf_cons_ne _ (hnew b hb)]
  exact Nat.succ_lt_succ hab

theorem Ordered.concat {ids : List ObjectId} (h : Ordered past k ids) (hnew : id ∉ ids) :
    Ordered ((k, id) :: past) k (ids ++ [id]) := by
  have hne : ∀ a ∈ ids, (k, id) ≠ (k, a) := by
    rintro a ha hsame
    cases hsame
    exact hnew ha
  refine ⟨fun a ha => ?_, List.pairwise_append.2 ⟨(h.cons hne).later, List.pairwise_singleton _ _,
    fun a ha b hb => ?_⟩⟩
  · rcases List.mem_append.1 ha with ha | ha
    · exact List.mem_cons_of_mem _ (h.staged a ha)
    · rw [List.mem_singleton.1 ha]
      exact List.mem_cons_self
  · rw [List.mem_singleton.1 hb, List.idxOf_cons_self, List.idxOf_cons_ne _ (hne a ha)]
    exact Nat.succ_pos _

theorem ordered_of_calls (h : Calls past g) (k : Kind) : Ordered past k (g.ids k) := by
  induction h generalizing k with
  | none =>
    have hnone : ({} : Staging).ids k = [] := by cases k <;> rfl
    rw [hnone]
    exact ⟨fun _ hid => absurd hid List.not_mem_nil, .nil⟩
  | @staged past g g' s j r before hcall ih =>
    obtain ⟨-, hpending, -, path, rfl, -⟩ := stage_eq_ok (attempt_eq_ok_iff.1 hcall)
    have hnone := (sound_of_calls before).isPending_eq_false.1 hpending j
    have hnew : r.id ∉ g.ids j := by
      intro hid
      obtain ⟨q, hq⟩ := (mem_ids_iff g j r.id).1 hid
      cases hnone.symm.trans hq
    rw [ids_add hnone]
    by_cases hk : j = k
    · subst hk
      rw [if_pos rfl]
      exact (ih j).concat hnew
    · rw [if_neg hk]
      exact (ih k).cons fun id _ hsame => hk (Prod.mk.inj hsame).1
  | refused _ hcall ih =>
    rw [attempt_eq_error hcall]
    exact ih k
  | @commitAll past g before host s ih =>
    exact (ih k).sublist (ids_sublist_of_steps (x := ⟨host, s, g⟩)
      (steps_commitAll_of_sound (sound_of_calls before)) k)
  | discardAll _ ih =>
    have hnone : ({} : Staging).ids k = [] := by cases k <;> rfl
    refine (ih k).sublist ?_
    show (({} : Staging).ids k).Sublist _
    rw [hnone]
    exact List.nil_sublist _

/-! ## The invariant -/

/-- What is staged, with the records that were staged before. -/
structure Represents (past : List (Kind × ObjectId)) (g : Staging) : Prop where
  /-- A pending id is in one table, and in no other. -/
  table : ∀ id, g.isPending id = true → ∃! k, id ∈ g.ids k
  pending : ∀ id, g.isPending id = true ↔ ∃ k, id ∈ g.ids k
  size : g.size = (Kind.all.flatMap g.ids).length
  distinct : (Kind.all.flatMap g.ids).Nodup
  record : ∀ k id r, g.get? k id = some r → r.id = id ∧ k.accepts r.object.objectClass = true
  entry : ∀ k id r, g.get? k id = some r →
    ∃ e, IndexEntry.ofObject? k r.object = some e ∧ ReadsLike k r e
  entries : ∀ k, (g.entries k).map IndexEntry.id = g.ids k
  order : ∀ k, Ordered past k (g.ids k)
  refusal : ∀ s k r e g', attempt s k r g = .error e g' → g' = g

/-- After any calls the tables, the pending ids and the entries say the same. -/
theorem represents_of_calls (h : Calls past g) : Represents past g := by
  have hsound := sound_of_calls h
  exact {
    table := fun id hid => hsound.existsUnique_table hid
    pending := fun id => hsound.isPending_iff
    size := hsound.size_eq
    distinct := hsound.perm_pending.nodup_iff.1 g.pending.nodup
    record := fun k id r hr => ⟨hsound.keyed k id r hr, (hsound.admitted k id r hr).accepts⟩
    entry := fun k id r hr => entry_readsLike (hsound.admitted k id r hr)
    entries := hsound.entries
    order := ordered_of_calls h
    refusal := fun _ _ _ _ _ hcall => attempt_eq_error hcall }

/-! ### A folder without its parent -/

def single : Staging := ({} : Staging).add .eventFolder inner none

/-- The folder is committed in vain. -/
def waiting : Staging := (commitAll.after ⟨loftHost, loft, single⟩).staging

theorem calls_waiting : Calls [(.eventFolder, inner.id)] waiting := by
  have hfirst : attempt loft .eventFolder inner {} = .ok () single := rfl
  have hagain : attempt loft .eventFolder inner single =
      .error (.duplicateId inner.id) single := rfl
  exact ((Calls.none.staged hfirst).refused hagain).commitAll loftHost loft

/-- A folder is staged, refused the second time, and committed in vain, before its parent is staged
as well. -/
theorem represents_of_calls_nested :
    ∃ g, Calls [(.eventFolder, outer.id), (.eventFolder, inner.id)] g ∧
      Represents [(.eventFolder, outer.id), (.eventFolder, inner.id)] g ∧
      g.ids .eventFolder = [inner.id, outer.id] := by
  have hids : waiting.ids .eventFolder = [inner.id] := by decide +kernel
  have hfree : waiting.isPending outer.id = false := by decide +kernel
  have hnone : waiting.get? .eventFolder outer.id = none :=
    (sound_of_calls calls_waiting).isPending_eq_false.1 hfree .eventFolder
  have hunknown : loft.containsAny outer.id = false := by decide +kernel
  have hstage : waiting.stage loft .eventFolder outer =
      .ok (waiting.add .eventFolder outer none) := by
    rw [stage_eq]
    unfold pathToTake
    rw [if_neg (by decide), if_neg (by decide), hfree, hunknown]
    rfl
  have hcalls := calls_waiting.staged (attempt_eq_ok_iff.2 hstage)
  refine ⟨_, hcalls, represents_of_calls hcalls, ?_⟩
  rw [ids_add hnone, if_pos rfl, hids]
  rfl

end Staging

end AudioProject
