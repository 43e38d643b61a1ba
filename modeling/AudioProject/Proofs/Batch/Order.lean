import AudioProject.Proofs.Batch.Renaming
import Mathlib.GroupTheory.Perm.ViaEmbedding

/-
  Plans with their entries in another order. Keys and items come in another order then, and each
  gets its block of ids at another place (`exists_moves`). As minted ids are new, this is a
  permutation of ids that leaves all others as they are (`exists_renaming`). So what is built is the
  same but for these names and the order (`Built.rearrange`).
-/

namespace AudioProject.Batch

variable {p p' : Plan} {s : Store} {ids ids' : IdSupply}

/-! ## Plans -/

/-- The same entries in each table, perhaps in another order. -/
structure Plan.Rearranged (p p' : Plan) : Prop where
  eventFolders : p.eventFolders.Perm p'.eventFolders
  bankFolders : p.bankFolders.Perm p'.bankFolders
  banks : p.banks.Perm p'.banks
  buses : p.buses.Perm p'.buses
  assetFolders : p.assetFolders.Perm p'.assetFolders
  events : p.events.Perm p'.events

namespace Plan

theorem Rearranged.keys (h : p.Rearranged p') : p.keys.Perm p'.keys :=
  (((((h.eventFolders.append h.bankFolders).append h.banks).append h.buses).filterMap _).append
    (h.assetFolders.filterMap _)).append (h.events.filterMap _)

theorem Rearranged.items (h : p.Rearranged p') (s : Store) : (p.items s).Perm (p'.items s) :=
  ((((h.eventFolders.map _).append (h.bankFolders.map _)).append (h.banks.map _)).append
    (h.buses.map _)).append (h.assetFolders.map _)

/-- Everything that an entry refers to. -/
def references (p : Plan) : List String :=
  (p.eventFolders ++ p.bankFolders ++ p.banks ++ p.buses).filterMap (·.above?) ++
    p.events.flatMap fun e => [e.template, e.folder, e.bank, e.bus]

theorem mem_references {x : Item} (hx : x ∈ p.items s) {reference : String}
    (h : reference ∈ x.above?) : reference ∈ p.references := by
  have hall : (p.items s).filterMap (·.above?) =
      (p.eventFolders ++ p.bankFolders ++ p.banks ++ p.buses).filterMap (·.above?) := by
    unfold items
    simp only [List.filterMap_append, List.filterMap_map]
    have hnone : p.assetFolders.filterMap
        ((·.above?) ∘ PathEntry.item (s.root .assetFolder)) = [] :=
      List.filterMap_eq_nil_iff.2 fun _ _ => rfl
    rw [hnone, List.append_nil]
    rfl
  exact List.mem_append_left _ (hall ▸ List.mem_filterMap.2 ⟨x, hx, h⟩)

end Plan

/-- The ids that a plan mints are new: each is minted once, the project has none of them, and the
plan does not write one of them down. -/
structure MintsNew (p : Plan) (s : Store) (ids ids' : IdSupply) : Prop where
  nodup : (ids.minted ids').Nodup
  store : ∀ id ∈ ids.minted ids', s.containsAny id = false ∧ ∀ k, s.root k ≠ id
  references : ∀ id ∈ ids.minted ids', id.text ∈ p.references → id.text ∈ p.keys

/-! ## Permutations -/

/-- A permutation of the numbers of minted ids is a permutation of ids. -/
theorem exists_renaming (hnew : (ids.minted ids').Nodup)
    {σ : Equiv.Perm Nat} (hσ : ∀ i, i < ids.issued ∨ ids'.issued ≤ i → σ i = i) :
    ∃ ρ : Equiv.Perm ObjectId,
      (∀ i, ids.issued ≤ i → i < ids'.issued → ρ (ids.nth i) = ids.nth (σ i)) ∧
        ∀ id ∉ ids.minted ids', ρ id = id := by
  let Minted (i : Nat) : Prop := ids.issued ≤ i ∧ i < ids'.issued
  have hin : ∀ i, Minted (σ i) ↔ Minted i := by
    intro i
    by_cases hi : Minted i
    · exact iff_of_true (inside_of_fixes hσ hi) hi
    · rw [hσ i (by omega)]
  let nth : {i // Minted i} ↪ ObjectId :=
    ⟨fun i => ids.nth i, fun i j heq => Subtype.ext (IdSupply.nth_inj hnew i.2 j.2 heq)⟩
  refine ⟨(σ.subtypePerm hin).viaEmbedding nth, fun i hlow hhigh => ?_, fun id hid => ?_⟩
  · exact Equiv.Perm.viaEmbedding_apply _ nth ⟨i, hlow, hhigh⟩
  · refine Equiv.Perm.viaEmbedding_apply_of_notMem _ _ _ fun hmem => hid ?_
    obtain ⟨i, rfl⟩ := hmem
    exact IdSupply.mem_minted.2 ⟨i, i.2.1, i.2.2, rfl⟩

/-! ## What is built -/

variable {keys : Keys} {qs : List (Kind × PendingRecord)}

theorem Plan.Rearranged.afterRecords_eq (h : p.Rearranged p') (s : Store) (ids : IdSupply) :
    p'.afterRecords s ids = p.afterRecords s ids := by
  unfold Plan.afterRecords
  rw [h.keys.length_eq, total_perm (h.items s)]

/-- A permutation of the keys gives each of them the id that it gets in another order. -/
theorem get?_rearranged {keys keys' : Keys} {ks ks' : List String} {σ : Equiv.Perm Nat}
    (hkeys : keys.toList = withIds ids ks) (hkeys' : keys'.toList = withIds ids ks')
    (hmoves : Moves (fun _ => 1) ids.issued ks ks' σ) {f : ObjectId → ObjectId}
    (hf : ∀ i, ids.issued ≤ i → i < ids.issued + ks.length → f (ids.nth i) = ids.nth (σ i))
    (key : String) : keys'.get? key = (keys.get? key).map f := by
  have hmem_image : ∀ {x}, x ∈ dealt (fun _ => 1) ids.issued ks →
      f (ids.nth x.2) = ids.nth (σ x.2) := by
    intro x hx
    obtain ⟨hlow, hhigh⟩ := bounds_of_mem_dealt hx
    rw [total_one] at hhigh
    exact hf x.2 hlow hhigh
  apply Option.ext
  intro id
  rw [get?_eq_some_iff_mem_dealt hkeys', Option.map_eq_some_iff]
  simp only [get?_eq_some_iff_mem_dealt hkeys, ← hmoves.perm.mem_iff, List.mem_map]
  constructor
  · rintro ⟨_, ⟨⟨key, i⟩, hmem, heq⟩, rfl⟩
    obtain ⟨rfl, rfl⟩ := Prod.mk.inj heq
    exact ⟨_, ⟨i, hmem, rfl⟩, hmem_image hmem⟩
  · rintro ⟨_, ⟨i, hmem, rfl⟩, rfl⟩
    exact ⟨_, ⟨(key, i), hmem, rfl⟩, (hmem_image hmem).symm⟩

/-- How a permutation of ids follows the entries of a plan to another order: the keys move by `τ`,
the records by `υ`, and what is not minted stays. -/
structure Follows (p p' : Plan) (s : Store) (ids : IdSupply) (ρ : Equiv.Perm ObjectId)
    (τ υ : Equiv.Perm Nat) : Prop where
  keys : Moves (fun _ => 1) ids.issued p.keys p'.keys τ
  items : Moves Item.width (ids.issued + p.keys.length) (p.items s) (p'.items s) υ
  key : ∀ i, ids.issued ≤ i → i < ids.issued + p.keys.length → ρ (ids.nth i) = ids.nth (τ i)
  record : ∀ i, ids.issued + p.keys.length ≤ i → i < (p.afterRecords s ids).issued →
    ρ (ids.nth i) = ids.nth (υ i)
  others : ∀ id ∉ ids.minted (p.afterRecords s ids), ρ id = id

theorem exists_follows (hp : p.Rearranged p')
    (hnew : (ids.minted (p.afterRecords s ids)).Nodup) : ∃ ρ τ υ, Follows p p' s ids ρ τ υ := by
  obtain ⟨τ, hτ⟩ := exists_moves (fun _ => 1) (fun _ => Nat.one_pos) hp.keys ids.issued
  obtain ⟨υ, hυ⟩ := exists_moves Item.width (fun x => x.form.width_pos) (hp.items s)
    (ids.issued + p.keys.length)
  have hkeys := hτ.outside
  rw [total_one] at hkeys
  have hlast : (p.afterRecords s ids).issued =
    ids.issued + p.keys.length + total Item.width (p.items s) := rfl
  have hfixes : ∀ i, i < ids.issued ∨ (p.afterRecords s ids).issued ≤ i → τ.trans υ i = i := by
    intro i hi
    rw [Equiv.trans_apply, hkeys i (by omega), hυ.outside i (by omega)]
  obtain ⟨ρ, hρ, hothers⟩ := exists_renaming hnew hfixes
  refine ⟨ρ, τ, υ, hτ, hυ, fun i hlow hhigh => ?_, fun i hlow hhigh => ?_, hothers⟩
  · have hin := inside_of_fixes hkeys ⟨hlow, hhigh⟩
    rw [hρ i hlow (by omega), Equiv.trans_apply, hυ.outside (τ i) (Or.inl hin.2)]
  · rw [hρ i (by omega) hhigh, Equiv.trans_apply, hkeys i (Or.inr hlow)]

/-- What a plan refers to and is no key of it keeps its id. -/
theorem MintsNew.stays (hnew : MintsNew p s ids ids') {ρ : Equiv.Perm ObjectId}
    (hothers : ∀ id ∉ ids.minted ids', ρ id = id) {reference : String}
    (href : reference ∈ p.references) {id : ObjectId} (hkey : reference ∉ p.keys)
    (hid : id.text = reference) : ρ id = id := by
  subst hid
  exact hothers id fun hmem => hkey (hnew.references id hmem href)

/-- In another order each item makes its renamed record where its block is now. -/
theorem Built.makes_rename (h : Built p s ids keys qs)
    (hnew : MintsNew p s ids (p.afterRecords s ids)) {ρ : Equiv.Perm ObjectId}
    {τ υ : Equiv.Perm Nat} (hfollows : Follows p p' s ids ρ τ υ) {keys' : Keys}
    (hkeys : ∀ key, keys'.get? key = (keys.get? key).map ρ) :
    List.Forall₂ (Item.Makes keys' ids.nth)
      ((dealt Item.width (ids.issued + p.keys.length) (p.items s)).map fun x => (x.1, υ x.2))
      (renameAll ρ qs) := by
  unfold renameAll
  rw [List.forall₂_map_left_iff, List.forall₂_map_right_iff]
  refine ((List.forall₂_and_left _ _).2 ⟨fun _ hx => hx, h.makes⟩).imp fun x q hxq => ?_
  obtain ⟨hx, hmakes⟩ := hxq
  have hitem : x.1 ∈ p.items s := map_fst_dealt _ _ (p.items s) ▸ List.mem_map_of_mem hx
  refine hmakes.rename hkeys ?_ (fun reference href id hkey hid => ?_) fun j hj => ?_
  · rw [Plan.top_of_mem_items hitem]
    exact hfollows.others _ fun hmem => (hnew.store _ hmem).2 x.1.kind rfl
  · rw [h.keys_eq] at hkey
    exact hnew.stays hfollows.others (Plan.mem_references hitem href) hkey hid
  · obtain ⟨hlow, hhigh⟩ := bounds_of_mem_items hx (Nat.le_add_right _ j) (by omega)
    rw [hfollows.record _ hlow hhigh, hfollows.items.whole x hx j hj]

/-- In another order the keys and the records are the same, with the minted ids permuted. -/
theorem Built.rearrange (h : Built p s ids keys qs)
    (hnew : MintsNew p s ids (p.afterRecords s ids)) (hp : p.Rearranged p') :
    ∃ (ρ : Equiv.Perm ObjectId) (keys' : Keys) (qs' : List (Kind × PendingRecord)),
      (∀ id ∉ ids.minted (p.afterRecords s ids), ρ id = id) ∧ Built p' s ids keys' qs' ∧
        (∀ key, keys'.get? key = (keys.get? key).map ρ) ∧ (renameAll ρ qs).Perm qs' := by
  obtain ⟨ρ, τ, υ, hfollows⟩ := exists_follows hp hnew.nodup
  have honce : p'.keys.Nodup := hp.keys.nodup_iff.1 h.once
  let keys' : Keys := ⟨withIds ids p'.keys, by rwa [map_fst_withIds]⟩
  have hkeys : ∀ key, keys'.get? key = (keys.get? key).map ρ :=
    get?_rearranged h.minted rfl hfollows.keys hfollows.key
  obtain ⟨qs', hqs', hperm⟩ :=
    List.perm_comp_forall₂ hfollows.items.perm.symm (h.makes_rename hnew hfollows hkeys)
  refine ⟨ρ, keys', qs', hfollows.others, ⟨honce, rfl, ?_⟩, hkeys, hperm.symm⟩
  rw [← hp.keys.length_eq]
  exact hqs'

/-! ## What is staged and asked for -/

/-- A plan in another order does the same under other ids: its keys have the ids that `ρ` makes of
the old ones, and so have its records and its requests. -/
structure Reordered (p p' : Plan) (s : Store) (ids ids₁ ids₂ : IdSupply) (keys keys' : Keys)
    (g g' : Staging) (ρ : Equiv.Perm ObjectId) : Prop where
  /-- Only minted ids change. -/
  others : ∀ id ∉ ids.minted ids₂, ρ id = id
  mints : mintKeys ∅ p'.keys ids = .ok keys' ids₁
  stages : stagePlan p' keys' s ids₁ = .ok g' ids₂
  named : ∀ key, keys'.get? key = (keys.get? key).map ρ
  staging : Staging.Renamed ρ g g'
  requests : ∀ dir rs, requests p keys dir = .ok rs →
    ∃ rs', requests p' keys' dir = .ok rs' ∧ (rs.map (Instantiation.Request.rename ρ)).Perm rs'

theorem Built.reordered (h : Built p s ids keys qs) (hstageable : Stageable s qs)
    (hnew : MintsNew p s ids (p.afterRecords s ids)) (hp : p.Rearranged p') :
    ∃ ρ keys' g', Reordered p p' s ids (p.afterKeys ids) (p.afterRecords s ids) keys keys'
      (stagedOf {} qs) g' ρ := by
  obtain ⟨ρ, keys', qs', hothers, hbuilt, hkeys, hperm⟩ := h.rearrange hnew hp
  have hstore : ∀ id, s.containsAny id = true → ρ id = id := fun id hid =>
    hothers id fun hmem => by
      rw [(hnew.store id hmem).1] at hid
      cases hid
  have hstageable' := (hstageable.rename hstore).perm hperm
  have hafter : p'.afterKeys ids = p.afterKeys ids := by
    unfold Plan.afterKeys
    rw [hp.keys.length_eq]
  obtain ⟨hmints, hstages⟩ := stages_iff.2
    ⟨qs', hbuilt, hstageable', rfl, hafter.symm, (hp.afterRecords_eq s ids).symm⟩
  refine ⟨ρ, keys', _, hothers, hmints, hstages, hkeys, hstageable.renamed hstageable' hperm, ?_⟩
  intro dir rs hrs
  have hasks : List.Forall₂ (Asks keys' dir) p.events
      (rs.map (Instantiation.Request.rename ρ)) := by
    rw [List.forall₂_map_right_iff]
    refine ((List.forall₂_and_left _ _).2 ⟨fun _ he => he, requests_eq_ok.1 hrs⟩).imp
      fun e r her => her.2.rename hkeys fun reference href id hkey hid => ?_
    rw [h.keys_eq] at hkey
    have hmem : reference ∈ p.references :=
      List.mem_append_right _ (List.mem_flatMap.2 ⟨e, her.1, href⟩)
    exact hnew.stays hothers hmem hkey hid
  obtain ⟨rs', hrs', hrename⟩ := List.perm_comp_forall₂ hp.events.symm hasks
  exact ⟨rs', requests_eq_ok.2 hrs', hrename.symm⟩

end AudioProject.Batch
