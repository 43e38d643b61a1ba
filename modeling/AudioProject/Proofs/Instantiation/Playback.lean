import AudioProject.Proofs.EventGraph.Playing
import AudioProject.Proofs.Instantiation.Copying

/-
  What a new event plays. The media of a request become the only modules of one track and of the
  timeline of the copied template. If the root led to all nodes of the copy, the event has all
  that the media brought in, and lost copied nodes only (`media_attached`). In any case these two
  nodes play nothing else where they are in the event; of other nodes that the copy has, it keeps
  the modules (`chosen_nodes_play`).
-/

namespace AudioProject.Instantiation

open EventGraph

variable {s : Store} {r : Request} {g : EventGraph} {root : ObjectId} {ids ids' : IdSupply}
  {copies : List PlannedCopy} {media : List PreparedMedia} {p : Plan}

/-- The copy of a template for a request, without its media. -/
def copyFor (r : Request) (g : EventGraph) (root : ObjectId) (ids : IdSupply) : EventGraph :=
  ((g.copy root ids).1.override (overrides r)).1

theorem isKeyed_copyFor (r : Request) (g : EventGraph) (root : ObjectId) (ids : IdSupply) :
    (copyFor r g root ids).IsKeyed := (isKeyed_rename g _ root).override _

theorem root_copyFor (r : Request) (g : EventGraph) (root : ObjectId) (ids : IdSupply) :
    (copyFor r g root ids).root = root := root_override _ _

/-- The mixer inputs of the copy lead to the bus of the request, and its root to the folder and the
bank. -/
theorem overridden_copyFor {id : ObjectId} {o : Object}
    (ho : (copyFor r g root ids).get? id = some o) :
    (o.objectClass = .mixerInput → o.edges.get? "output" = some [r.bus]) ∧
      (id = (copyFor r g root ids).root →
        o.edges.get? "folder" = some [r.folder] ∧ o.edges.get? "banks" = some [r.bank]) := by
  have hcopy := (isKeyed_rename g (g.copy root ids).2.1 root).overridden (overrides r) ho
  exact ⟨hcopy.1, fun hid => hcopy.2 (hid.trans (root_override _ _))⟩

/-- Media that are put in a copy bring in new nodes, and the nodes that are then led to are left. -/
structure GraftsInto (e : EventGraph) (media : List PreparedMedia) (p : Plan) (track : ObjectId)
    (sounds : List Object) (multi : Object) (mixer : List Object) (grafted : EventGraph) :
    Prop where
  keyed : e.IsKeyed
  hasRoot : e.contains e.root = true
  copied : p.copied = e.size
  audioFiles : List.Forall₂ IsAudioFile media p.audioFiles
  brings : e.Brings p.audioFiles track sounds multi mixer
  /-- No module was the new one. -/
  unplayed : ∀ o ∈ e.nodes.values, multi.id ∉ o.edge "modules"
  grows : Extends (e.regraft track multi.id) (sounds ++ multi :: mixer) e grafted
  event : p.event = grafted.prune.1
  pruned : p.pruned = grafted.prune.2

/-- Of minted ids that are new the copy has some, and the others are new to it. -/
theorem newFor_later (hnew : g.NewFor (ids.minted ids')) (hid : root ∉ ids.minted ids')
    (hids : (g.copy root ids).2.2.Precedes ids') :
    (g.copyIds root ids ++ (g.copy root ids).2.2.minted ids').Nodup ∧
      g.NewFor ((g.copy root ids).2.2.minted ids') := by
  have hsplit := IdSupply.minted_append (precedes_copy g root ids) hids
  refine ⟨?_, (hsplit ▸ hnew).append_right⟩
  rw [copyIds, List.cons_append, ← hsplit]
  exact List.nodup_cons.2 ⟨hid, hnew.once⟩

theorem contains_root_copyFor (hkeyed : g.IsKeyed)
    (hnames : g.Respells root (g.copyIds root ids) (g.copy root ids).2.1)
    (hroot : g.contains g.root = true) (r : Request) :
    (copyFor r g root ids).contains (copyFor r g root ids).root = true := by
  rw [root_copyFor, EventGraph.contains_iff]
  refine (hnames.keys_override hkeyed (overrides r)).symm ▸ List.mem_map.2 ⟨g.root, ?_, hnames.root⟩
  exact (g.contains_iff g.root).1 hroot

theorem graft_of_assemble {n : Nat} {later : IdSupply} (hmedia : media ≠ [])
    (h : assemble s r (g.copy root ids).1 n copies media later = (p, ids')) :
    ∃ grafted, (copyFor r g root ids).graft media later s.masters.assetFolder =
      (grafted, p.audioFiles, ids') ∧ p.event = grafted.prune.1 ∧ p.pruned = grafted.prune.2 ∧
      p.copied = n := by
  unfold assemble at h
  dsimp only at h
  rw [if_neg (by simpa using hmedia)] at h
  cases h
  exact ⟨_, rfl, rfl, rfl, rfl⟩

/-- Media that are put in a copy bring in new nodes, and all that the root still leads to is
left. -/
theorem exists_grafted (hkeyed : g.IsKeyed) (hroot : g.contains g.root = true)
    (hnew : g.NewFor (ids.minted ids')) (hid : root ∉ ids.minted ids') (hmedia : media ≠ [])
    (h : assemble s r (g.copy root ids).1 (g.copy root ids).2.1.size copies media
      (g.copy root ids).2.2 = (p, ids')) :
    ∃ track sounds multi mixer grafted, GraftsInto (copyFor r g root ids) media p track
      sounds multi mixer grafted := by
  obtain ⟨grafted, hgraft, hevent, hpruned, hcopied⟩ := graft_of_assemble hmedia h
  have haudio := forall₂_graft (copyFor r g root ids) media (g.copy root ids).2.2
    s.masters.assetFolder
  have hids := precedes_graft (copyFor r g root ids) media (g.copy root ids).2.2
    s.masters.assetFolder
  rw [hgraft] at haudio hids
  obtain ⟨honce, hlater⟩ := newFor_later hnew hid hids
  have hnames := respells_copy hroot (List.nodup_append.1 honce).1
  obtain ⟨track, sounds, multi, mixer, hbrings, hperm, hgrows⟩ := extends_graft
    (isKeyed_copyFor r g root ids) (contains_root_copyFor hkeyed hnames hroot r) hmedia hgraft
    (hnames.nodup_keys_override hkeyed honce (overrides r))
    (fun o ho => hnames.edge_override hkeyed honce hlater (overrides r) (by decide) ho)
  refine ⟨track, sounds, multi, mixer, grafted, isKeyed_copyFor r g root ids,
    contains_root_copyFor hkeyed hnames hroot r, ?_, haudio, hbrings, fun o ho hmulti => ?_, hgrows,
    hevent, hpruned⟩
  · have hkeys := congrArg List.length (hnames.keys_override hkeyed (overrides r))
    have hnamed := congrArg List.length hnames.keys
    rw [List.length_map] at hkeys
    simp only [OrderedMap.keys, List.length_map] at hkeys hnamed
    exact hcopied.trans (hnamed.trans hkeys.symm)
  · refine hnames.edge_override hkeyed honce hlater (overrides r) (by decide) ho _ hmulti ?_
    refine hperm.mem_iff.2 (List.mem_append_right _ (List.mem_map_of_mem ?_))
    exact List.mem_append_right _ List.mem_cons_self

theorem mem_news {sounds mixer : List Object} {multi o : Object} (ho : o ∈ multi :: sounds) :
    o ∈ sounds ++ multi :: mixer := by
  rcases List.mem_cons.1 ho with rfl | ho
  · exact List.mem_append_right _ List.mem_cons_self
  · exact List.mem_append_left _ ho

namespace GraftsInto

variable {e grafted : EventGraph} {track id : ObjectId} {sounds mixer : List Object}
  {multi o : Object}

variable (hg : GraftsInto e media p track sounds multi mixer grafted)
include hg

theorem once : ((sounds ++ multi :: mixer).map Object.id).Nodup := by
  have hkeys := grafted.nodes.nodup
  change grafted.nodes.keys.Nodup at hkeys
  rw [hg.grows.keys (e.keeps_regraft track multi.id) hg.keyed] at hkeys
  exact (List.nodup_append.1 hkeys).2.1

theorem size : grafted.size =
    e.size + (media.length + 1 + if (e.firstOf? .groupTrack).isNone then 5 else 0) := by
  have hvalues := congrArg List.length hg.grows.values
  have hsounds := hg.audioFiles.length_eq.trans hg.brings.forall₂.length_eq
  have hmixer : mixer.length = if (e.firstOf? .groupTrack).isNone then 5 else 0 := by
    rcases hg.brings.track with ⟨t, ht, -, rfl⟩ | ⟨hnone, t, group, chain, panner, fader, rfl, -⟩
    · rw [ht]
      rfl
    · rw [hnone]
      rfl
  simp only [OrderedMap.values, List.length_append, List.length_map, List.length_cons] at hvalues
  show grafted.nodes.toList.length = e.nodes.toList.length + _
  omega

/-- The event has the nodes of the grafted one that its root leads to. -/
theorem get?_event : p.event.get? id = some o ↔
    grafted.Reaches id ∧ grafted.get? id = some o := by
  rw [hg.event]
  exact get?_prune_eq_some

theorem of_get? (ho : p.event.get? id = some o) :
    o ∈ sounds ++ multi :: mixer ∨ ∃ q, e.get? id = some q ∧ e.regraft track multi.id q = o := by
  have hget := (hg.get?_event.1 ho).2
  rcases (hg.grows.get?_eq_some_iff (e.keeps_regraft track multi.id) hg.keyed).1 hget with
    hold | hnew
  · exact Or.inr hold
  · exact Or.inl hnew.1

theorem new (ho : o ∈ sounds ++ multi :: mixer) : e.contains o.id = false :=
  Bool.eq_false_iff.2 fun hold =>
    hg.grows.apart (e.keeps_regraft track multi.id) hg.keyed hold (List.mem_map_of_mem ho)

/-- A new node that the root leads to is in the event. -/
theorem attached (ho : o ∈ sounds ++ multi :: mixer) (hreaches : grafted.Reaches o.id) :
    p.event.get? o.id = some o ∧ p.event.Reaches o.id := by
  have hkeeps := e.keeps_regraft track multi.id
  refine ⟨?_, ?_⟩
  · exact hg.get?_event.2 ⟨hreaches, hg.grows.get?_of_mem hkeeps hg.keyed ho⟩
  · rw [hg.event]
    exact reaches_prune hreaches

theorem eq_multi_of_objectClass (ho : o ∈ sounds ++ multi :: mixer)
    (hclass : o.objectClass = .multiSound) : o = multi := by
  refine (hg.brings.objectClass ho).resolve_right fun hmem => ?_
  rw [hclass] at hmem
  revert hmem
  decide

theorem objectClass_ne_mixerInput (ho : o ∈ sounds ++ multi :: mixer) :
    o.objectClass ≠ .mixerInput := by
  intro hclass
  rcases hg.brings.objectClass ho with rfl | hmem
  · rw [hg.brings.isMultiOf.objectClass] at hclass
    cases hclass
  · rw [hclass] at hmem
    revert hmem
    decide

theorem root_event : p.event.root = e.root := by
  rw [hg.event]
  exact hg.grows.root

/-- The root of the event is that of the copy. -/
theorem rootObject?_event : ∃ q, e.get? e.root = some q ∧
    p.event.rootObject? = some (e.regraft track multi.id q) := by
  obtain ⟨q, hq⟩ := Option.isSome_iff_exists.1 hg.hasRoot
  have hreaches : grafted.Reaches grafted.root := .refl
  rw [hg.grows.root] at hreaches
  refine ⟨q, hq, ?_⟩
  rw [rootObject?, hg.root_event]
  exact hg.get?_event.2
    ⟨hreaches, hg.grows.get?_of_get? (e.keeps_regraft track multi.id) hg.keyed hq⟩

theorem size_event : p.event.size + p.pruned =
    p.copied + media.length + 1 + if (e.firstOf? .groupTrack).isNone then 5 else 0 := by
  have hsize := grafted.size_prune
  rw [← hg.event, ← hg.pruned, hg.size, ← hg.copied] at hsize
  simpa only [Nat.add_assoc] using hsize

/-- The nodes that are chosen to play have the new module, and others those that they had. -/
theorem get?_modules (ho : p.event.get? id = some o) : o.edges.get? "modules" =
    if e.Plays track id then some [multi.id] else (e.get? id).bind (·.edges.get? "modules") :=
  hg.brings.get?_modules hg.grows hg.keyed (hg.get?_event.1 ho).2

theorem modules_of_plays (ho : p.event.get? id = some o) (hplays : e.Plays track id) :
    o.edges.get? "modules" = some [multi.id] := by
  rw [hg.get?_modules ho, if_pos hplays]

theorem modules_of_not_plays {dests : List ObjectId} (ho : p.event.get? id = some o)
    (hother : ¬ e.Plays track id) (hdests : o.edges.get? "modules" = some dests) :
    multi.id ∉ dests ∧ ∃ q, e.get? id = some q ∧ q.edges.get? "modules" = some dests := by
  rw [hg.get?_modules ho, if_neg hother] at hdests
  obtain ⟨q, hq, hdests⟩ := Option.bind_eq_some_iff.1 hdests
  refine ⟨?_, q, hq, hdests⟩
  have hunplayed := hg.unplayed q (hg.keyed.get?_eq_some_iff.1 hq).1
  rwa [Object.edge, hdests] at hunplayed

/-- A node that is chosen to play leads to the multi sound and its sounds. -/
theorem present (hdefined : p.event.contains id = true) (hplays : e.Plays track id)
    (ho : o ∈ multi :: sounds) : p.event.get? o.id = some o := by
  obtain ⟨q, hq⟩ := Option.isSome_iff_exists.1 hdefined
  have hreaches := hg.brings.reaches_sounds hg.grows hg.keyed hg.hasRoot hplays
    (hg.get?_event.1 hq).1 ho
  exact (hg.attached (mem_news ho) hreaches).1

/-- So does the multi sound itself. -/
theorem present_of_multi (hmulti : p.event.contains multi.id = true) (ho : o ∈ multi :: sounds) :
    p.event.get? o.id = some o := by
  obtain ⟨q, hq⟩ := Option.isSome_iff_exists.1 hmulti
  have hreaches := hg.brings.reaches_of_multi hg.grows hg.keyed (hg.get?_event.1 hq).1 ho
  exact (hg.attached (mem_news ho) hreaches).1

theorem all_modules_iff : (∀ id o dests, p.event.get? id = some o →
      o.edges.get? "modules" = some dests → dests = [multi.id]) ↔
    ∀ id o, p.event.get? id = some o → o.hasEdge "modules" = true → e.Plays track id := by
  constructor
  · intro hall id o ho hedge
    by_contra hother
    obtain ⟨dests, hdests⟩ := Option.isSome_iff_exists.1 hedge
    have hmulti := (hg.modules_of_not_plays ho hother hdests).1
    rw [hall id o dests ho hdests] at hmulti
    exact hmulti (List.mem_singleton_self _)
  · intro hall id o dests ho hdests
    rw [hg.modules_of_plays ho (hall id o ho (OrderedMap.contains_of_get? hdests))] at hdests
    exact (Option.some.inj hdests).symm

end GraftsInto

/-! ## Attached media -/

/-- The media of a plan are attached to its event, which was `e` without them. -/
structure MediaAttached (e : EventGraph) (v : Overrides) (media : List PreparedMedia) (p : Plan)
    (track : ObjectId) (sounds : List Object) (multi : Object) (mixer : List Object) : Prop where
  audioFiles : List.Forall₂ IsAudioFile media p.audioFiles
  brings : e.Brings p.audioFiles track sounds multi mixer
  /-- The multi sound is the only one that is new. -/
  one : ∀ o ∈ sounds ++ multi :: mixer, o.objectClass = .multiSound → o = multi
  once : ((sounds ++ multi :: mixer).map Object.id).Nodup
  /-- What is new is in the event, and the root leads to it. -/
  attached : ∀ o ∈ sounds ++ multi :: mixer,
    e.contains o.id = false ∧ p.event.get? o.id = some o ∧ p.event.Reaches o.id
  /-- Nodes of the copy that are left differ in the modules of the track and the timeline, and in
  the tracks of the root if that is new. -/
  others : ∀ id o, p.event.get? id = some o →
    o ∈ sounds ++ multi :: mixer ∨ ∃ q, e.get? id = some q ∧ e.regraft track multi.id q = o
  root : p.event.root = e.root ∧ ∃ o, p.event.rootObject? = some o ∧
    o.edges.get? "folder" = some [v.folder] ∧ o.edges.get? "banks" = some [v.bank]
  outputs : ∀ id o, p.event.get? id = some o → o.objectClass = .mixerInput →
    o.edges.get? "output" = some [v.bus]
  size : p.event.size + p.pruned =
    p.copied + media.length + 1 + if (e.firstOf? .groupTrack).isNone then 5 else 0

/-- Media stay attached to the event, if the root led to all nodes of the copy. -/
theorem media_attached (hkeyed : g.IsKeyed) (hroot : g.contains g.root = true)
    (hnew : g.NewFor (ids.minted ids')) (hid : root ∉ ids.minted ids') (hmedia : media ≠ [])
    (hall : ∀ id, (copyFor r g root ids).contains id = true → (copyFor r g root ids).Reaches id)
    (h : assemble s r (g.copy root ids).1 (g.copy root ids).2.1.size copies media
      (g.copy root ids).2.2 = (p, ids')) :
    ∃ track sounds multi mixer, MediaAttached (copyFor r g root ids) (overrides r) media p track
      sounds multi mixer := by
  obtain ⟨track, sounds, multi, mixer, grafted, hgrafts⟩ :=
    exists_grafted hkeyed hroot hnew hid hmedia h
  refine ⟨track, sounds, multi, mixer, hgrafts.audioFiles, hgrafts.brings,
    fun o => hgrafts.eq_multi_of_objectClass, hgrafts.once, fun o ho => ⟨hgrafts.new ho, ?_⟩,
    fun id o => hgrafts.of_get?, ⟨hgrafts.root_event, ?_⟩, fun id o ho hclass => ?_,
    hgrafts.size_event⟩
  · exact hgrafts.attached ho
      (hgrafts.brings.reaches_news hgrafts.grows hgrafts.keyed hgrafts.hasRoot hall ho)
  · obtain ⟨q, hq, hobject⟩ := hgrafts.rootObject?_event
    refine ⟨_, hobject, ?_⟩
    rw [get?_regraft (by decide), get?_regraft (by decide)]
    exact (overridden_copyFor hq).2 rfl
  · rcases hgrafts.of_get? ho with hnew | ⟨q, hq, rfl⟩
    · exact absurd hclass (hgrafts.objectClass_ne_mixerInput hnew)
    · rw [(keeps_regraft _ _ _).objectClass] at hclass
      rw [get?_regraft (by decide)]
      exact (overridden_copyFor hq).1 hclass

/-! ### Carols with a new tune -/

/-- A file without information. -/
def bells : PreparedMedia := ⟨"seasonal/bells.wav", none⟩

/-- Names for the nodes of a copied carol, and for what media bring in. -/
def carolIds : IdSupply where
  nth n := [⟨"line2", by decide⟩, ⟨"lead2", by decide⟩, ⟨"choir2", by decide⟩,
    ⟨"input2", by decide⟩, ⟨"tune2", by decide⟩, ⟨"hum2", by decide⟩, ⟨"bells", by decide⟩,
    ⟨"ding", by decide⟩].getD n ⟨"peal", by decide⟩

/-- The event of the carol's template with other sounds. -/
def bellsPlan : Plan × IdSupply :=
  assemble shop noel (carolGraph.copy noelId carolIds).1
    (carolGraph.copy noelId carolIds).2.1.size [] [bells] (carolGraph.copy noelId carolIds).2.2

theorem reached_copyFor_noel : (copyFor noel carolGraph noelId carolIds).reached =
    [⟨"hum2", by decide⟩, ⟨"tune2", by decide⟩, ⟨"input2", by decide⟩, ⟨"choir2", by decide⟩,
      ⟨"lead2", by decide⟩, ⟨"line2", by decide⟩, noelId] := by cbv

theorem newFor_bells : carolGraph.NewFor (carolIds.minted bellsPlan.2) :=
  ⟨by decide, by decide, by decide⟩

theorem isKeyed_carolGraph : carolGraph.IsKeyed := fun _ _ ho => (mem_of_definitions ho).2

theorem reaches_copyFor_noel (id : ObjectId)
    (hid : (copyFor noel carolGraph noelId carolIds).contains id = true) :
    (copyFor noel carolGraph noelId carolIds).Reaches id := by
  have hall : ∀ id ∈ (copyFor noel carolGraph noelId carolIds).nodes.keys,
      id ∈ (copyFor noel carolGraph noelId carolIds).reached := by
    rw [reached_copyFor_noel]
    decide
  exact (EventGraph.mem_reached_iff _).1 (hall id ((EventGraph.contains_iff _ id).1 hid))

theorem media_attached_bells : carolGraph.IsKeyed ∧ carolGraph.contains carolGraph.root = true ∧
    carolGraph.NewFor (carolIds.minted bellsPlan.2) ∧ noelId ∉ carolIds.minted bellsPlan.2 ∧
    [bells] ≠ [] ∧ (∀ id, (copyFor noel carolGraph noelId carolIds).contains id = true →
      (copyFor noel carolGraph noelId carolIds).Reaches id) ∧
    ∃ track sounds multi mixer, MediaAttached (copyFor noel carolGraph noelId carolIds)
      (overrides noel) [bells] bellsPlan.1 track sounds multi mixer := by
  have hroot : carolGraph.contains carolGraph.root = true := by decide +kernel
  have hid : noelId ∉ carolIds.minted bellsPlan.2 := by decide +kernel
  exact ⟨isKeyed_carolGraph, hroot, newFor_bells, hid, nofun, reaches_copyFor_noel,
    media_attached isKeyed_carolGraph hroot newFor_bells hid nofun reaches_copyFor_noel rfl⟩

/-! ## What plays -/

/-- Of the event of a plan, which was `e` without media, just the track and the timeline play the
new media, and nothing else. -/
structure ChosenPlay (e : EventGraph) (media : List PreparedMedia) (p : Plan) (track : ObjectId)
    (sounds : List Object) (multi : Object) (mixer : List Object) : Prop where
  brings : e.Brings p.audioFiles track sounds multi mixer
  length : sounds.length = media.length
  new : ∀ o ∈ sounds ++ multi :: mixer, e.contains o.id = false
  chosen : ∀ id o, p.event.get? id = some o → e.Plays track id →
    o.edges.get? "modules" = some [multi.id]
  /-- Where one of these two nodes is, there are the multi sound and its sounds. -/
  present : ∀ id, p.event.contains id = true → e.Plays track id →
    ∀ o ∈ multi :: sounds, p.event.get? o.id = some o
  /-- Other nodes that have modules are nodes of the copy and have those they had. -/
  kept : ∀ id o dests, p.event.get? id = some o → ¬ e.Plays track id →
    o.edges.get? "modules" = some dests →
      multi.id ∉ dests ∧ ∃ q, e.get? id = some q ∧ q.edges.get? "modules" = some dests
  /-- Nothing else plays exactly if no other node that is left has modules. -/
  only : (∀ id o dests, p.event.get? id = some o → o.edges.get? "modules" = some dests →
      dests = [multi.id]) ↔
    ∀ id o, p.event.get? id = some o → o.hasEdge "modules" = true → e.Plays track id

/-- The track and the timeline that are chosen play the new media only. -/
theorem chosen_nodes_play (hkeyed : g.IsKeyed) (hroot : g.contains g.root = true)
    (hnew : g.NewFor (ids.minted ids')) (hid : root ∉ ids.minted ids') (hmedia : media ≠ [])
    (h : assemble s r (g.copy root ids).1 (g.copy root ids).2.1.size copies media
      (g.copy root ids).2.2 = (p, ids')) :
    ∃ track sounds multi mixer, ChosenPlay (copyFor r g root ids) media p track sounds multi
      mixer := by
  obtain ⟨track, sounds, multi, mixer, grafted, hgrafts⟩ :=
    exists_grafted hkeyed hroot hnew hid hmedia h
  exact ⟨track, sounds, multi, mixer, hgrafts.brings,
    (hgrafts.audioFiles.length_eq.trans hgrafts.brings.forall₂.length_eq).symm,
    fun o => hgrafts.new, fun id o => hgrafts.modules_of_plays,
    fun id hdefined hplays o => hgrafts.present hdefined hplays,
    fun id o dests ho => hgrafts.modules_of_not_plays ho, hgrafts.all_modules_iff⟩

theorem chosen_nodes_play_bells : carolGraph.IsKeyed ∧
    carolGraph.contains carolGraph.root = true ∧ carolGraph.NewFor (carolIds.minted bellsPlan.2) ∧
    noelId ∉ carolIds.minted bellsPlan.2 ∧ [bells] ≠ [] ∧
    ∃ track sounds multi mixer, ChosenPlay (copyFor noel carolGraph noelId carolIds) [bells]
      bellsPlan.1 track sounds multi mixer := by
  have hroot : carolGraph.contains carolGraph.root = true := by decide +kernel
  have hid : noelId ∉ carolIds.minted bellsPlan.2 := by decide +kernel
  exact ⟨isKeyed_carolGraph, hroot, newFor_bells, hid, nofun,
    chosen_nodes_play isKeyed_carolGraph hroot newFor_bells hid nofun rfl⟩

theorem modules_bellsPlan :
    (bellsPlan.1.event.nodes.values.filterMap fun o => (o.edges.get? "modules").map (o.id, ·)) =
      [(⟨"line2", by decide⟩, [⟨"peal", by decide⟩]), (⟨"lead2", by decide⟩, [⟨"peal", by decide⟩]),
        (⟨"choir2", by decide⟩, [⟨"hum2", by decide⟩])] := by cbv

/-- The first track and the timeline ring the bells, but the choir still hums. -/
theorem choir_hums_on : ¬ ∃ multi, ∀ o ∈ bellsPlan.1.event.nodes.values, ∀ dests,
    o.edges.get? "modules" = some dests → dests = [multi] := by
  rintro ⟨multi, hall⟩
  have hmem : ∀ id dests, (id, dests) ∈ (bellsPlan.1.event.nodes.values.filterMap fun o =>
      (o.edges.get? "modules").map (o.id, ·)) → dests = [multi] := by
    intro id dests hmem
    obtain ⟨o, ho, hpair⟩ := List.mem_filterMap.1 hmem
    obtain ⟨_, hdests, heq⟩ := Option.map_eq_some_iff.1 hpair
    cases heq
    exact hall o ho dests hdests
  rw [modules_bellsPlan] at hmem
  have htrack := hmem ⟨"lead2", by decide⟩ [⟨"peal", by decide⟩] (by simp)
  have hchoir := hmem ⟨"choir2", by decide⟩ [⟨"hum2", by decide⟩] (by simp)
  rw [← hchoir] at htrack
  revert htrack
  decide

end AudioProject.Instantiation
