import AudioProject.Proofs.EventGraph.Copies

/-
  Properties that all nodes have. A new event has such a property if the copied nodes do and media
  leave it: they change nothing in a node but its modules and its group tracks, and bring in nodes
  of a few classes (`SparedByMedia`, `Each.graft`).
-/

namespace AudioProject.EventGraph

variable {P : Object → Prop} {g : EventGraph} {o : Object} {os : List Object}

/-- All nodes have a property. -/
def Each (P : Object → Prop) (g : EventGraph) : Prop := ∀ id o, g.get? id = some o → P o

namespace Each

theorem objects (h : g.Each P) : ∀ o ∈ g.objects, P o := by
  intro o ho
  obtain ⟨id, ho⟩ := mem_objects ho
  exact h id o ho

theorem prune (h : g.Each P) : g.prune.1.Each P := by
  intro id o ho
  rw [get?_prune] at ho
  split at ho
  · exact h id o ho
  · cases ho

theorem update (h : g.Each P) (node : ObjectId) {f : Object → Object}
    (hf : ∀ o, P o → P (f o)) : (g.update node f).Each P := by
  intro id o ho
  rw [get?_update] at ho
  split at ho
  · obtain ⟨q, hq, rfl⟩ := Option.map_eq_some_iff.1 ho
    exact hf q (h id q hq)
  · exact h id o ho

theorem insert (h : g.Each P) (ho : P o) : (g.insert o).Each P := by
  intro id q hq
  have hq : (g.nodes.insert o.id o).get? id = some q := hq
  rw [OrderedMap.get?_insert] at hq
  split at hq
  · cases hq
    exact ho
  · exact h id q hq

theorem insertAll (h : g.Each P) (hos : ∀ o ∈ os, P o) : (g.insertAll os).Each P := by
  induction os generalizing g with
  | nil => exact h
  | cons o os ih =>
    rw [List.forall_mem_cons] at hos
    exact ih (h.insert hos.1) hos.2

end Each

/-! ## Media -/

/-- The classes of the nodes that media bring in. -/
def mediaClasses : List ObjectClass :=
  [.singleSound, .multiSound, .groupTrack, .eventMixerGroup, .mixerBusEffectChain,
    .mixerBusPanner, .mixerBusFader]

/-- A property that media leave: their nodes have it, and it asks for no modules or group
tracks. -/
structure SparedByMedia (P : Object → Prop) : Prop where
  modules : ∀ o dests, P o → P (o.setEdge "modules" dests)
  groupTracks : ∀ o dests, P o → P (o.setEdge "groupTracks" dests)
  new : ∀ o, o.objectClass ∈ mediaClasses → P o

theorem mem_mediaClasses_soundsFor (masterAssetFolder : ObjectId) (ids : IdSupply)
    (media : List PreparedMedia) :
    ∀ p ∈ (soundsFor masterAssetFolder ids media).1, p.2.objectClass ∈ mediaClasses := by
  induction media generalizing ids with
  | nil => simp [soundsFor]
  | cons m ms ih =>
    have hclass : ObjectClass.singleSound ∈ mediaClasses := List.mem_cons_self
    intro p hp
    rcases List.mem_cons.1 hp with rfl | hp
    · exact hclass
    · exact ih _ p hp

theorem mem_mediaClasses_newGroupTrack (g : EventGraph) (ids : IdSupply) :
    ∀ o ∈ (g.newGroupTrack ids).1 :: (g.newGroupTrack ids).2.1,
      o.objectClass ∈ mediaClasses := by
  unfold newGroupTrack
  dsimp only
  simp only [List.forall_mem_cons]
  have hgroup : ObjectClass.eventMixerGroup ∈ mediaClasses := by decide
  refine ⟨List.mem_of_elem_eq_true rfl, ?_, List.mem_of_elem_eq_true rfl,
    List.mem_of_elem_eq_true rfl, List.mem_of_elem_eq_true rfl, nofun⟩
  split <;> exact hgroup

theorem Each.withGroupTrack (h : g.Each P) (hP : SparedByMedia P) (ids : IdSupply) :
    (g.withGroupTrack ids).1.Each P := by
  unfold EventGraph.withGroupTrack
  split
  · exact h
  · have hroot : (g.update g.root fun o =>
        o.pushEdge "groupTracks" (g.newGroupTrack ids).1.id).Each P :=
      h.update g.root fun o ho => hP.groupTracks o _ ho
    exact hroot.insertAll fun o ho => hP.new o (mem_mediaClasses_newGroupTrack g ids o ho)

theorem Each.setTimeline (h : g.Each P) (hP : SparedByMedia P) (module : ObjectId) :
    (g.setTimeline module).Each P := by
  unfold EventGraph.setTimeline
  split
  · exact h.update _ fun o ho => hP.modules o _ ho
  · exact h

theorem Each.graft (h : g.Each P) (hP : SparedByMedia P) (media : List PreparedMedia)
    (ids : IdSupply) (masterAssetFolder : ObjectId) :
    (g.graft media ids masterAssetFolder).1.Each P := by
  cases media with
  | nil => exact h
  | cons first media =>
    have hclasses := mem_mediaClasses_soundsFor masterAssetFolder ids (first :: media)
    unfold EventGraph.graft
    dsimp only
    generalize soundsFor masterAssetFolder ids (first :: media) = made at hclasses
    obtain ⟨sounds, ids₁⟩ := made
    have hclass : ObjectClass.multiSound ∈ mediaClasses := by decide
    have hsounds : (g.insertAll (sounds.map Prod.snd)).Each P :=
      h.insertAll (List.forall_mem_map.2 fun p hp => hP.new p.2 (hclasses p hp))
    have hmulti := hsounds.insert (hP.new (multiSound ids₁.mint.1 first
      (sounds.map fun s => s.2.id)) hclass)
    have htrack := hmulti.withGroupTrack hP ids₁.mint.2
    exact (htrack.update _ fun o ho => hP.modules o _ ho).setTimeline hP _

/-! ## Copies -/

/-- The nodes of a copy are those of the template, renamed, with what is overridden in them. -/
theorem each_override_rename (g : EventGraph) (r : Renaming) (root : ObjectId) (v : Overrides)
    (h : ∀ q ∈ g.nodes.values, P (overrideNode v root (renameNode r q))) :
    ((g.rename r root).override v).1.Each P := by
  intro id o ho
  obtain ⟨q, hq, rfl⟩ := ((isKeyed_rename g r root).get?_override v).1 ho
  obtain ⟨hmem, -⟩ := mem_of_definitions hq
  obtain ⟨old, hold, rfl⟩ := List.mem_map.1 hmem
  exact h old hold

end AudioProject.EventGraph
