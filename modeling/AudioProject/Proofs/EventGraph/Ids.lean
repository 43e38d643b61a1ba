import AudioProject.Proofs.EventGraph.Root
import Mathlib.Data.List.Perm.Basic

/-
  The ids of a new event. A copy has the ids of its root and those that were minted for it, and
  media bring in minted ids only: some for the audio files, the others for nodes
  (`IdsIn.graft`). So if what is minted is new, each id of the event and its audio files stands for
  one object.
-/

namespace AudioProject

/-! ## Minted ids -/

/-- The ids that are minted from `ids` on until there is `ids'`, in order. -/
def IdSupply.minted (ids ids' : IdSupply) : List ObjectId :=
  (List.range' ids.issued (ids'.issued - ids.issued)).map ids.nth

namespace IdSupply

variable {ids ids₁ ids' : IdSupply} {id : ObjectId}

theorem mem_minted : id ∈ ids.minted ids' ↔
    ∃ n, ids.issued ≤ n ∧ n < ids'.issued ∧ ids.nth n = id := by
  unfold minted
  simp only [List.mem_map, List.mem_range'_1]
  constructor
  · rintro ⟨n, hn, rfl⟩
    exact ⟨n, hn.1, by omega, rfl⟩
  · rintro ⟨n, hle, hlt, rfl⟩
    exact ⟨n, ⟨hle, by omega⟩, rfl⟩

theorem minted_self (ids : IdSupply) : ids.minted ids = [] := by simp [minted]

theorem minted_mint (ids : IdSupply) : ids.minted ids.mint.2 = [ids.mint.1] := by
  simp [minted, mint]

/-- What is minted in two goes is minted first by the one and then by the other. -/
theorem minted_append (h : ids.Precedes ids₁) (h' : ids₁.Precedes ids') :
    ids.minted ids' = ids.minted ids₁ ++ ids₁.minted ids' := by
  have hsum : ids'.issued - ids.issued =
      (ids₁.issued - ids.issued) + (ids'.issued - ids₁.issued) := by
    have := h.issued
    have := h'.issued
    omega
  have hstart : ids.issued + (ids₁.issued - ids.issued) = ids₁.issued := by
    have := h.issued
    omega
  unfold minted
  rw [hsum, ← List.range'_append_1, List.map_append, hstart, h.nth]

theorem not_mem_minted (h : IsFresh id ids ids') (hids : ids.Precedes ids') :
    id ∉ ids.minted ids' := by
  intro hmem
  obtain ⟨n, hle, hlt, hn⟩ := mem_minted.1 hmem
  refine h n hle hlt ?_
  rw [hids.nth]
  exact hn

end IdSupply

open IdSupply

/-- Each media file gets an id for its object and one for its sound. -/
theorem flatMap_soundsFor (masterAssetFolder : ObjectId) (ids : IdSupply)
    (media : List PreparedMedia) :
    ((soundsFor masterAssetFolder ids media).1.flatMap fun p => [p.1.id, p.2.id]) =
      ids.minted (soundsFor masterAssetFolder ids media).2 := by
  induction media generalizing ids with
  | nil => exact (minted_self ids).symm
  | cons m ms ih =>
    have haudio : (audioFile ids.mint.1 m masterAssetFolder).id = ids.mint.1 := by
      unfold audioFile
      cases m.info <;> rfl
    have hmint := IdSupply.Precedes.mint ids
    have hmint' := IdSupply.Precedes.mint ids.mint.2
    have hrest := EventGraph.precedes_soundsFor masterAssetFolder ids.mint.2.mint.2 ms
    show (audioFile ids.mint.1 m masterAssetFolder).id :: ids.mint.2.mint.1 ::
        ((soundsFor masterAssetFolder ids.mint.2.mint.2 ms).1.flatMap fun p => [p.1.id, p.2.id]) =
      ids.minted (soundsFor masterAssetFolder ids.mint.2.mint.2 ms).2
    rw [haudio, ih, minted_append (hmint.trans hmint') hrest, minted_append hmint hmint',
      minted_mint, minted_mint]
    rfl

namespace EventGraph

variable {g : EventGraph} {root : ObjectId} {o : Object} {ids ids' : IdSupply}
  {S S' : List ObjectId}

/-! ## The ids of nodes -/

/-- Every node stands under its own id, which is one of `S`. -/
def IdsIn (g : EventGraph) (S : List ObjectId) : Prop :=
  ∀ id o, g.get? id = some o → o.id = id ∧ id ∈ S

theorem IdsIn.keyed (h : g.IdsIn S) : g.IsKeyed := fun id o ho => (h id o ho).1

theorem IdsIn.mono (h : g.IdsIn S) (hS : S ⊆ S') : g.IdsIn S' :=
  fun id o ho => ⟨(h id o ho).1, hS (h id o ho).2⟩

theorem IdsIn.prune (h : g.IdsIn S) : g.prune.1.IdsIn S := by
  intro id o ho
  rw [get?_prune] at ho
  split at ho
  · exact h id o ho
  · cases ho

/-- Changes that leave ids leave the ids of a graph. -/
theorem IdsIn.update (h : g.IdsIn S) (node : ObjectId) {f : Object → Object}
    (hid : ∀ o, (f o).id = o.id) : (g.update node f).IdsIn S := by
  intro id o ho
  rw [get?_update] at ho
  split at ho
  · obtain ⟨q, hq, rfl⟩ := Option.map_eq_some_iff.1 ho
    exact ⟨(hid q).trans (h id q hq).1, (h id q hq).2⟩
  · exact h id o ho

theorem IdsIn.insert (h : g.IdsIn S) (ho : o.id ∈ S) : (g.insert o).IdsIn S := by
  intro id q hq
  have hq : (g.nodes.insert o.id o).get? id = some q := hq
  rw [OrderedMap.get?_insert] at hq
  split at hq
  · next hsame =>
    cases hq
    exact ⟨hsame, hsame ▸ ho⟩
  · exact h id q hq

theorem IdsIn.insertAll {os : List Object} (h : g.IdsIn S) (hos : ∀ o ∈ os, o.id ∈ S) :
    (g.insertAll os).IdsIn S := by
  induction os generalizing g with
  | nil => exact h
  | cons o os ih =>
    exact ih (h.insert (hos o List.mem_cons_self)) fun q hq => hos q (List.mem_cons_of_mem _ hq)

theorem IdsIn.override (h : g.IdsIn S) (v : Overrides) : (g.override v).1.IdsIn S := by
  have hroot : (g.update g.root (overrideRoot v)).IdsIn S := h.update g.root fun _ => rfl
  intro id o ho
  have ho : ((g.update g.root (overrideRoot v)).nodes.mapValues
      fun _ o => overrideOutput v o).get? id = some o := ho
  rw [OrderedMap.get?_mapValues] at ho
  obtain ⟨q, hq, rfl⟩ := Option.map_eq_some_iff.1 ho
  refine ⟨?_, (hroot id q hq).2⟩
  unfold overrideOutput
  split <;> exact (hroot id q hq).1

theorem IdsIn.setModules (h : g.IdsIn S) (node module : ObjectId) :
    (g.setModules node module).IdsIn S := h.update node fun _ => rfl

theorem IdsIn.setTimeline (h : g.IdsIn S) (module : ObjectId) :
    (g.setTimeline module).IdsIn S := by
  unfold EventGraph.setTimeline
  split
  · exact h.setModules _ module
  · exact h

/-! ## Copies -/

/-- New ids are the new root and minted ones. -/
theorem get?_renamingFor {oldRoot old new : ObjectId} {r : Renaming} {olds : List ObjectId}
    (h : (renamingFor oldRoot root ids r olds).1.get? old = some new) :
    r.get? old = some new ∨ new = root ∨
      new ∈ ids.minted (renamingFor oldRoot root ids r olds).2 := by
  induction olds generalizing r ids with
  | nil => exact Or.inl h
  | cons first olds ih =>
    rw [renamingFor] at h ⊢
    by_cases hroot : first = oldRoot
    · rw [if_pos hroot] at h ⊢
      rcases ih h with hold | hnew
      · rw [OrderedMap.get?_insert] at hold
        split at hold
        · exact Or.inr (Or.inl (Option.some.inj hold).symm)
        · exact Or.inl hold
      · exact Or.inr hnew
    · rw [if_neg hroot] at h ⊢
      have hminted := minted_append (Precedes.mint ids)
        (precedes_renamingFor oldRoot root ids.mint.2 (r.insert first ids.mint.1) olds)
      rw [minted_mint, List.singleton_append] at hminted
      dsimp only at h ⊢
      rw [hminted]
      rcases ih h with hold | hnew | hnew
      · rw [OrderedMap.get?_insert] at hold
        split at hold
        · exact Or.inr (Or.inr (List.mem_cons.2 (Or.inl (Option.some.inj hold).symm)))
        · exact Or.inl hold
      · exact Or.inr (Or.inl hnew)
      · exact Or.inr (Or.inr (List.mem_cons_of_mem _ hnew))

/-- A copy has its new root and minted ids. -/
theorem idsIn_copy (hkeyed : g.IsKeyed) (hfresh : IsFresh root ids ids')
    (hids : (g.copy root ids).2.2.Precedes ids') :
    (g.copy root ids).1.IdsIn (root :: ids.minted (g.copy root ids).2.2) := by
  intro id o ho
  obtain ⟨hmem, hid⟩ := mem_of_definitions ho
  refine ⟨hid, ?_⟩
  obtain ⟨q, hq, rfl⟩ := List.mem_map.1 hmem
  obtain ⟨⟨old, q⟩, hpair, rfl⟩ := List.mem_map.1 hq
  have hold := hkeyed old q ((OrderedMap.get?_eq_some_iff _ _ _).2 hpair)
  obtain ⟨new, hnew⟩ := (renames_copy hfresh hids).2 old (List.mem_map_of_mem hpair)
  have hrename : id = new := by
    rw [← hid]
    show Renaming.apply (g.copy root ids).2.1 q.id = new
    rw [hold, Renaming.apply, hnew, Option.getD_some]
  rw [hrename]
  rcases get?_renamingFor hnew with hnone | hroot | hminted
  · cases hnone
  · exact List.mem_cons.2 (Or.inl hroot)
  · exact List.mem_cons_of_mem _ hminted

/-! ## Media -/

theorem mem_minted_newGroupTrack (g : EventGraph) (ids : IdSupply) :
    ∀ o ∈ (g.newGroupTrack ids).1 :: (g.newGroupTrack ids).2.1,
      o.id ∈ ids.minted (g.newGroupTrack ids).2.2 := by
  have hmem : ∀ n < 5, ids.nth (ids.issued + n) ∈ ids.minted (g.newGroupTrack ids).2.2 := by
    intro n hn
    have hissued : (g.newGroupTrack ids).2.2.issued = ids.issued + 5 := rfl
    exact mem_minted.2 ⟨ids.issued + n, by omega, by omega, rfl⟩
  unfold newGroupTrack at hmem ⊢
  dsimp only at hmem ⊢
  simp only [List.forall_mem_cons]
  refine ⟨hmem 4 (by decide), ?_, hmem 2 (by decide), hmem 1 (by decide), hmem 0 (by decide),
    by simp⟩
  split <;> exact hmem 3 (by decide)

theorem IdsIn.withGroupTrack (h : g.IdsIn S) (ids : IdSupply) :
    (g.withGroupTrack ids).1.IdsIn (S ++ ids.minted (g.withGroupTrack ids).2.2) := by
  unfold EventGraph.withGroupTrack
  split
  · exact h.mono (List.subset_append_left _ _)
  · have hroot : (g.update g.root fun o =>
        o.pushEdge "groupTracks" (g.newGroupTrack ids).1.id).IdsIn S := h.update g.root fun _ => rfl
    have hall := hroot.mono (List.subset_append_left S (ids.minted (g.newGroupTrack ids).2.2))
    exact hall.insertAll fun o ho => List.mem_append_right _ (mem_minted_newGroupTrack g ids o ho)

/-- Of what is minted for media, some goes to the audio files and the others to nodes. -/
theorem IdsIn.graft (h : g.IdsIn S) (media : List PreparedMedia) (ids : IdSupply)
    (masterAssetFolder : ObjectId) : ∃ others,
      (ids.minted (g.graft media ids masterAssetFolder).2.2).Perm
        ((g.graft media ids masterAssetFolder).2.1.map Object.id ++ others) ∧
      (g.graft media ids masterAssetFolder).1.IdsIn (S ++ others) := by
  cases media with
  | nil =>
    refine ⟨[], ?_, h.mono (List.subset_append_left _ _)⟩
    show (ids.minted ids).Perm _
    rw [minted_self]
    exact .refl _
  | cons first media =>
    have hpairs := flatMap_soundsFor masterAssetFolder ids (first :: media)
    have hprecedes := precedes_soundsFor masterAssetFolder ids (first :: media)
    unfold EventGraph.graft
    dsimp only
    generalize soundsFor masterAssetFolder ids (first :: media) = made at hpairs hprecedes
    obtain ⟨sounds, ids₁⟩ := made
    dsimp only at hpairs hprecedes ⊢
    have hsounds : (g.insertAll (sounds.map Prod.snd)).IdsIn
        (S ++ (sounds.map fun p => p.2.id)) := by
      refine (h.mono (List.subset_append_left _ _)).insertAll fun o ho => ?_
      obtain ⟨p, hp, rfl⟩ := List.mem_map.1 ho
      exact List.mem_append_right _ (List.mem_map_of_mem hp)
    have hmulti := (hsounds.mono (List.subset_append_left _ [ids₁.mint.1])).insert
      (o := multiSound ids₁.mint.1 first (sounds.map fun s => s.2.id))
      (List.mem_append_right _ (List.mem_singleton_self _))
    have htrack := hmulti.withGroupTrack ids₁.mint.2
    refine ⟨(sounds.map fun p => p.2.id) ++ ids₁.minted
      (((g.insertAll (sounds.map Prod.snd)).insert
        (multiSound ids₁.mint.1 first (sounds.map fun s => s.2.id))).withGroupTrack
          ids₁.mint.2).2.2, ?_, ?_⟩
    · rw [minted_append hprecedes ((Precedes.mint ids₁).trans (precedes_withGroupTrack _ _)),
        ← hpairs, List.map_map, ← List.append_assoc]
      refine List.Perm.append_right _ (List.Perm.symm ?_)
      have hsplit := List.map_append_flatMap_perm sounds (fun p => p.1.id) fun p => [p.2.id]
      rwa [← List.map_eq_flatMap] at hsplit
    · refine ((htrack.setModules _ _).setTimeline _).mono ?_
      rw [minted_append (Precedes.mint ids₁) (precedes_withGroupTrack _ _), minted_mint]
      simp

/-- A copy and the media in it share the id of the root and the minted ids among them. -/
theorem ids_of_graft_copy (hkeyed : g.IsKeyed) {v : Overrides} {media : List PreparedMedia}
    {masterAssetFolder : ObjectId} {event : EventGraph} {audio : List Object}
    (h : ((g.copy root ids).1.override v).1.graft media (g.copy root ids).2.2 masterAssetFolder =
      (event, audio, ids')) (hfresh : IsFresh root ids ids') :
    ∃ S, (audio.map Object.id ++ S).Perm (root :: ids.minted ids') ∧ event.IdsIn S := by
  obtain ⟨hcopy, hgraft⟩ := precedes_graft_copy h
  have hcopied := (idsIn_copy hkeyed hfresh hgraft).override v
  obtain ⟨others, hperm, hnodes⟩ := hcopied.graft media (g.copy root ids).2.2 masterAssetFolder
  rw [h] at hperm hnodes
  refine ⟨_, ?_, hnodes⟩
  let copied := root :: ids.minted (g.copy root ids).2.2
  calc
    List.Perm (audio.map Object.id ++ (copied ++ others))
        (copied ++ (audio.map Object.id ++ others)) := List.perm_append_comm_assoc _ _ _
    List.Perm _ (copied ++ (g.copy root ids).2.2.minted ids') := hperm.symm.append_left copied
    _ = root :: ids.minted ids' := by
      rw [minted_append hcopy hgraft]
      rfl

/-! ## Each id once -/

theorem mem_objects (h : o ∈ g.objects) : ∃ id, g.get? id = some o := by
  rcases List.mem_append.1 h with hroot | hother
  · exact ⟨g.root, Option.mem_toList.1 hroot⟩
  · obtain ⟨⟨id, q⟩, hpair, rfl⟩ := List.mem_map.1 hother
    have hq := (OrderedMap.get?_eq_some_iff _ _ _).2 hpair
    rw [OrderedMap.get?_erase] at hq
    split at hq
    · cases hq
    · exact ⟨id, hq⟩

theorem mem_objects_of_get? {id : ObjectId} (h : g.get? id = some o) : o ∈ g.objects := by
  by_cases hroot : id = g.root
  · subst hroot
    exact List.mem_append_left _ (Option.mem_toList.2 h)
  · refine List.mem_append_right _ (List.mem_map.2 ⟨(id, o), ?_, rfl⟩)
    rw [← OrderedMap.get?_eq_some_iff, OrderedMap.get?_erase, if_neg (Ne.symm hroot)]
    exact h

/-- Nodes under their own ids have an id each. -/
theorem IsKeyed.nodup_objects (h : g.IsKeyed) : (g.objects.map Object.id).Nodup := by
  have hids : (g.nodes.erase g.root).values.map Object.id = (g.nodes.erase g.root).keys := by
    unfold OrderedMap.values OrderedMap.keys
    rw [List.map_map]
    refine List.map_congr_left fun p hp => ?_
    have hget := (OrderedMap.get?_eq_some_iff (g.nodes.erase g.root) p.1 p.2).2 hp
    rw [OrderedMap.get?_erase] at hget
    split at hget
    · cases hget
    · exact h p.1 p.2 hget
  have hrest : ((g.nodes.erase g.root).values.map Object.id).Nodup :=
    hids ▸ (g.nodes.erase g.root).nodup
  unfold objects
  rw [List.map_append, List.nodup_append]
  refine ⟨?_, hrest, ?_⟩
  · cases g.rootObject? <;> simp
  · rintro _ hroot _ hother rfl
    obtain ⟨o, ho, rfl⟩ := List.mem_map.1 hroot
    rw [hids, OrderedMap.mem_keys_iff] at hother
    obtain ⟨q, hq⟩ := hother
    rw [OrderedMap.get?_erase, h g.root o (Option.mem_toList.1 ho), if_pos rfl] at hq
    cases hq

/-- Objects that share no id with the nodes can stand beside the event. -/
theorem IdsIn.nodup_beside (h : g.IdsIn S) {os : List Object}
    (hS : (os.map Object.id ++ S).Nodup) :
    ((os ++ g.objects).map Object.id).Nodup ∧
      ∀ o ∈ os ++ g.objects, o.id ∈ os.map Object.id ++ S := by
  have hnodes : ∀ o ∈ g.objects, o.id ∈ S := by
    intro o ho
    obtain ⟨id, hid⟩ := mem_objects ho
    rw [(h id o hid).1]
    exact (h id o hid).2
  obtain ⟨hos, -, hapart⟩ := List.nodup_append.1 hS
  constructor
  · rw [List.map_append, List.nodup_append]
    refine ⟨hos, h.keyed.nodup_objects, fun id hid id' hid' => ?_⟩
    obtain ⟨o, ho, rfl⟩ := List.mem_map.1 hid'
    exact hapart id hid o.id (hnodes o ho)
  · intro o ho
    rcases List.mem_append.1 ho with ho | ho
    · exact List.mem_append_left _ (List.mem_map_of_mem ho)
    · exact List.mem_append_right _ (hnodes o ho)

end EventGraph

end AudioProject
