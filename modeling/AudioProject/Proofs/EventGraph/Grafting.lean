import AudioProject.Proofs.EventGraph.Copies
import AudioProject.Proofs.EventGraph.Reachable

/-
  What media change in an event. Its nodes stay where they are and new ones come behind them
  (`Extends`): a sound for each audio file, a multi sound of these, and a group track where the
  event has none (`Brings`). Of the old nodes the chosen track and the timeline get the multi
  sound as their only module, and the root one more track if that is new; all others are as
  before (`extends_graft`).
-/

namespace AudioProject

namespace EventGraph

variable {g h : EventGraph} {f u : Object → Object} {news os : List Object} {o : Object}
  {id track multi : ObjectId} {ids ids' : IdSupply}

/-! ## Nodes behind the nodes -/

/-- `h` has the nodes of `g`, each changed by `f`, and `news` behind them. -/
structure Extends (f : Object → Object) (news : List Object) (g h : EventGraph) : Prop where
  root : h.root = g.root
  values : h.nodes.values = g.nodes.values.map f ++ news
  keyed : h.IsKeyed

/-- A change of the object of one id only. -/
def changeAt (id : ObjectId) (u : Object → Object) (o : Object) : Object :=
  if o.id = id then u o else o

/-- What a change leaves of every object, so that the track and the timeline are found as before. -/
structure Keeps (f : Object → Object) : Prop where
  id : ∀ o, (f o).id = o.id
  objectClass : ∀ o, (f o).objectClass = o.objectClass
  timeline : ∀ o, (f o).edge "timeline" = o.edge "timeline"

theorem Keeps.self : Keeps fun o => o := ⟨fun _ => rfl, fun _ => rfl, fun _ => rfl⟩

theorem Keeps.setEdge (label : String) (hlabel : label ≠ "timeline")
    (dests : Object → List ObjectId) : Keeps fun o => o.setEdge label (dests o) := by
  refine ⟨fun _ => rfl, fun _ => rfl, fun o => ?_⟩
  rw [Object.edge, Object.edge, Object.get?_setEdge, if_neg hlabel]

theorem Keeps.changeAt (hu : Keeps u) (id : ObjectId) : Keeps (changeAt id u) := by
  refine ⟨fun o => ?_, fun o => ?_, fun o => ?_⟩ <;> unfold EventGraph.changeAt <;> split
  · exact hu.id o
  · rfl
  · exact hu.objectClass o
  · rfl
  · exact hu.timeline o
  · rfl

theorem Keeps.comp (hu : Keeps u) (hf : Keeps f) : Keeps (u ∘ f) :=
  ⟨fun o => (hu.id _).trans (hf.id o), fun o => (hu.objectClass _).trans (hf.objectClass o),
    fun o => (hu.timeline _).trans (hf.timeline o)⟩

theorem map_changeAt_of_not_mem (u : Object → Object) (hid : id ∉ os.map Object.id) :
    os.map (changeAt id u) = os := by
  refine (List.map_congr_left fun o ho => ?_).trans (List.map_id os)
  exact if_neg fun hsame => hid (List.mem_map.2 ⟨o, ho, hsame⟩)

/-- A change of two objects, made on one after the other, which may be the same. -/
theorem changeAt_changeAt (track id : ObjectId) (hu : ∀ o, (u o).id = o.id)
    (htwice : ∀ o, u (u o) = u o) (o : Object) :
    changeAt id u (changeAt track u o) = if o.id = track ∨ o.id = id then u o else o := by
  unfold changeAt
  by_cases htrack : o.id = track
  · rw [if_pos htrack, hu, htwice, ite_self, if_pos (Or.inl htrack)]
  · rw [if_neg htrack]
    exact if_congr (or_iff_right htrack).symm rfl rfl

namespace Extends

theorem refl (hkeyed : g.IsKeyed) : Extends (fun o => o) [] g g :=
  ⟨rfl, by simp, hkeyed⟩

theorem update (hh : Extends f news g h) (id : ObjectId) (hu : Keeps u) :
    Extends (changeAt id u ∘ f) (news.map (changeAt id u)) g (h.update id u) := by
  refine ⟨(root_update h id u).trans hh.root, ?_, hh.keyed.update id hu.id⟩
  rw [hh.keyed.values_update, hh.values, List.map_append, List.map_map]
  rfl

theorem insertAll (hh : Extends f news g h) (hnew : (h.nodes.keys ++ os.map Object.id).Nodup) :
    Extends f (news ++ os) g (h.insertAll os) := by
  have hnodes : ∀ (os : List Object) (h : EventGraph), (h.insertAll os).root = h.root ∧
      (h.insertAll os).nodes =
        (os.map fun o => (o.id, o)).foldl (fun m p => m.insert p.1 p.2) h.nodes := by
    intro os
    induction os with
    | nil => exact fun _ => ⟨rfl, rfl⟩
    | cons o os ih => exact fun h => ih (h.insert o)
  have hlist : (h.insertAll os).nodes.toList = h.nodes.toList ++ os.map fun o => (o.id, o) := by
    rw [(hnodes os h).2]
    refine OrderedMap.toList_foldl_insert _ _ ?_
    rw [List.map_append, List.map_map]
    exact hnew
  have hkeyed : (h.insertAll os).IsKeyed :=
    ((isKeyed_iff_idsIn.1 hh.keyed).mono (List.subset_append_left _ (os.map Object.id))).insertAll
      (fun o ho => List.mem_append_right _ (List.mem_map_of_mem ho)) |>.keyed
  refine ⟨(hnodes os h).1.trans hh.root, ?_, hkeyed⟩
  unfold OrderedMap.values
  rw [hlist, List.map_append, List.map_map, ← List.append_assoc]
  exact congrArg₂ _ hh.values (List.map_id os)

variable (hh : Extends f news g h) (hf : Keeps f)
include hh hf

theorem keys (hkeyed : g.IsKeyed) : h.nodes.keys = g.nodes.keys ++ news.map Object.id := by
  rw [hh.keyed.keys, hh.values, List.map_append, List.map_map, hkeyed.keys]
  exact congrArg (· ++ _) (List.map_congr_left fun o _ => hf.id o)

/-- No new node has an id of the old ones. -/
theorem apart (hkeyed : g.IsKeyed) (hid : g.contains id = true) : id ∉ news.map Object.id := by
  have hnodup := h.nodes.nodup
  change h.nodes.keys.Nodup at hnodup
  rw [hh.keys hf hkeyed, List.nodup_append] at hnodup
  exact fun hmem => hnodup.2.2 id ((g.contains_iff id).1 hid) id hmem rfl

theorem get?_eq_some_iff (hkeyed : g.IsKeyed) : h.get? id = some o ↔
    (∃ q, g.get? id = some q ∧ f q = o) ∨ o ∈ news ∧ o.id = id := by
  rw [hh.keyed.get?_eq_some_iff, hh.values, List.mem_append, List.mem_map]
  simp only [hkeyed.get?_eq_some_iff]
  constructor
  · rintro ⟨⟨q, hq, rfl⟩ | hnew, rfl⟩
    · exact Or.inl ⟨q, ⟨hq, (hf.id q).symm⟩, rfl⟩
    · exact Or.inr ⟨hnew, rfl⟩
  · rintro (⟨q, ⟨hq, rfl⟩, rfl⟩ | ⟨hnew, rfl⟩)
    · exact ⟨Or.inl ⟨q, hq, rfl⟩, hf.id q⟩
    · exact ⟨Or.inr hnew, rfl⟩

theorem get?_of_get? (hkeyed : g.IsKeyed) {q : Object} (hq : g.get? id = some q) :
    h.get? id = some (f q) := (hh.get?_eq_some_iff hf hkeyed).2 (Or.inl ⟨q, hq, rfl⟩)

theorem get?_of_mem (hkeyed : g.IsKeyed) (ho : o ∈ news) : h.get? o.id = some o :=
  (hh.get?_eq_some_iff hf hkeyed).2 (Or.inr ⟨ho, rfl⟩)

theorem contains_iff (hkeyed : g.IsKeyed) :
    h.contains id = true ↔ g.contains id = true ∨ id ∈ news.map Object.id := by
  rw [EventGraph.contains_iff, EventGraph.contains_iff, hh.keys hf hkeyed, List.mem_append]

/-- New nodes of other classes are not the first of a class. -/
theorem firstOf? {c : ObjectClass} (hnone : ∀ o ∈ news, o.objectClass ≠ c) :
    h.firstOf? c = (g.firstOf? c).map f := by
  have hnews : news.filter (·.objectClass = c) = [] :=
    List.filter_eq_nil_iff.2 fun o ho => by simpa using hnone o ho
  unfold EventGraph.firstOf? ofClass
  rw [hh.values, List.filter_append, hnews, List.append_nil, List.filter_map, List.head?_map]
  refine congrArg (fun os => Option.map f (List.head? os)) (List.filter_congr fun o _ => ?_)
  simp [hf.objectClass o]

/-- New nodes that no timeline is led to, and that are none, leave the timeline. -/
theorem timeline? (hkeyed : g.IsKeyed) (hroot : g.contains g.root = true)
    (hnone : ∀ o ∈ news, o.objectClass ≠ .timeline)
    (hled : ∀ o ∈ g.nodes.values, ∀ id ∈ o.edge "timeline", id ∉ news.map Object.id) :
    h.timeline? = g.timeline? := by
  obtain ⟨o, ho⟩ := Option.isSome_iff_exists.1 hroot
  have hnamed : (h.rootObject?.bind (·.singleEdge? "timeline")).filter h.contains =
      (g.rootObject?.bind (·.singleEdge? "timeline")).filter g.contains := by
    have hroot' : h.rootObject? = some (f o) := by
      show h.get? h.root = _
      rw [hh.root]
      exact hh.get?_of_get? hf hkeyed ho
    have hroot : g.rootObject? = some o := ho
    rw [hroot', hroot, Option.bind_some, Option.bind_some, Object.singleEdge?, Object.singleEdge?,
      hf.timeline o]
    cases hhead : (o.edge "timeline").head? with
    | none => rfl
    | some id =>
      have hold := hled o (hkeyed.get?_eq_some_iff.1 ho).1 id (List.mem_of_mem_head? hhead)
      have hsame : h.contains id = g.contains id := Bool.eq_iff_iff.2
        ((hh.contains_iff hf hkeyed).trans (or_iff_left hold))
      rw [Option.filter_some, Option.filter_some, hsame]
  have hfirst : (h.firstOf? .timeline).map Object.id = (g.firstOf? .timeline).map Object.id := by
    rw [hh.firstOf? hf hnone, Option.map_map]
    exact congrArg (Option.map · _) (funext hf.id)
  unfold EventGraph.timeline?
  rw [hnamed, hfirst]

end Extends

/-! ## What media bring in -/

/-- A single sound of an audio file. -/
structure IsSoundOf (audio sound : Object) : Prop where
  objectClass : sound.objectClass = .singleSound
  edges : sound.edges.toList = [("audioFile", [audio.id])]

/-- A multi sound of single sounds. -/
structure IsMultiOf (sounds : List Object) (multi : Object) : Prop where
  objectClass : multi.objectClass = .multiSound
  edges : multi.edges.toList = [("sounds", sounds.map Object.id)]

/-- A group track that plays `multi` only, and the nodes that it needs, none of which plays
anything. -/
structure IsMixer (multi : ObjectId) (t group chain panner fader : Object) : Prop where
  objectClass : [t, group, chain, panner, fader].map Object.objectClass =
    [.groupTrack, .eventMixerGroup, .mixerBusEffectChain, .mixerBusPanner, .mixerBusFader]
  edges : t.edges.toList = [("mixerGroup", [group.id]), ("modules", [multi])]
  chained : group.edge "effectChain" = [chain.id]
  panned : group.edge "panner" = [panner.id]
  faded : chain.edge "effects" = [fader.id]
  silent : ∀ o ∈ [group, chain, panner, fader], o.edges.get? "modules" = none

/-- What media bring into an event: a single sound for each audio file, a multi sound of them, and
a group track where the event has none, else its first one is taken. -/
structure Brings (g : EventGraph) (audio : List Object) (track : ObjectId) (sounds : List Object)
    (multi : Object) (mixer : List Object) : Prop where
  forall₂ : List.Forall₂ IsSoundOf audio sounds
  isMultiOf : IsMultiOf sounds multi
  track : (∃ t, g.firstOf? .groupTrack = some t ∧ t.id = track ∧ mixer = []) ∨
    g.firstOf? .groupTrack = none ∧ ∃ t group chain panner fader,
      mixer = [t, group, chain, panner, fader] ∧ t.id = track ∧
      IsMixer multi.id t group chain panner fader

/-- The nodes that are chosen to play: the track, and the timeline if there is one. -/
def Plays (g : EventGraph) (track id : ObjectId) : Prop := id = track ∨ g.timeline? = some id

instance (g : EventGraph) (track id : ObjectId) : Decidable (g.Plays track id) :=
  inferInstanceAs (Decidable (_ ∨ _))

/-- The root names the track if that is new. -/
def attach (g : EventGraph) (track : ObjectId) (o : Object) : Object :=
  if o.id = g.root ∧ g.firstOf? .groupTrack = none then o.pushEdge "groupTracks" track else o

/-- An old node with what media change in it. -/
def regraft (g : EventGraph) (track multi : ObjectId) (o : Object) : Object :=
  if g.Plays track o.id then (g.attach track o).setEdge "modules" [multi] else g.attach track o

theorem keeps_attach (g : EventGraph) (track : ObjectId) : Keeps (g.attach track) := by
  have hpush := (Keeps.setEdge "groupTracks" (by decide)
    fun o => o.edge "groupTracks" ++ [track])
  refine ⟨fun o => ?_, fun o => ?_, fun o => ?_⟩ <;> unfold attach <;> split
  · rfl
  · rfl
  · rfl
  · rfl
  · exact hpush.timeline o
  · rfl

theorem keeps_regraft (g : EventGraph) (track multi : ObjectId) :
    Keeps (g.regraft track multi) := by
  have hattach := g.keeps_attach track
  have hset := Keeps.setEdge "modules" (by decide) fun _ => [multi]
  refine ⟨fun o => ?_, fun o => ?_, fun o => ?_⟩ <;> unfold regraft <;> split
  · exact hattach.id o
  · exact hattach.id o
  · exact hattach.objectClass o
  · exact hattach.objectClass o
  · exact (hset.timeline _).trans (hattach.timeline o)
  · exact hattach.timeline o

theorem forall₂_isSoundOf (masterAssetFolder : ObjectId) (ids : IdSupply)
    (media : List PreparedMedia) :
    List.Forall₂ IsSoundOf ((soundsFor masterAssetFolder ids media).1.map Prod.fst)
      ((soundsFor masterAssetFolder ids media).1.map Prod.snd) := by
  induction media generalizing ids with
  | nil => exact .nil
  | cons m ms ih =>
    have haudio : (audioFile ids.mint.1 m masterAssetFolder).id = ids.mint.1 := by
      unfold audioFile
      cases m.info <;> rfl
    refine .cons ⟨rfl, ?_⟩ (ih _)
    show [("audioFile", [ids.mint.1])] =
      [("audioFile", [(audioFile ids.mint.1 m masterAssetFolder).id])]
    rw [haudio]

theorem ids_newGroupTrack (g : EventGraph) (ids : IdSupply) :
    ((((g.newGroupTrack ids).1 :: (g.newGroupTrack ids).2.1).map Object.id)).reverse =
      ids.minted (g.newGroupTrack ids).2.2 := by
  have hminted : ids.minted (g.newGroupTrack ids).2.2 = (List.range' ids.issued 5).map ids.nth := by
    show (List.range' ids.issued (ids.issued + 5 - ids.issued)).map ids.nth = _
    rw [Nat.add_sub_cancel_left]
  rw [hminted]
  unfold newGroupTrack
  cases g.firstOf? .eventMixerMaster <;> rfl

theorem isMixer_newGroupTrack (g : EventGraph) (ids : IdSupply) (multi : ObjectId) :
    ∃ t group chain panner fader,
      (g.newGroupTrack ids).1.setEdge "modules" [multi] :: (g.newGroupTrack ids).2.1 =
        [t, group, chain, panner, fader] ∧ t.id = (g.newGroupTrack ids).1.id ∧
      IsMixer multi t group chain panner fader := by
  unfold newGroupTrack
  cases g.firstOf? .eventMixerMaster with
  | none =>
    refine ⟨_, _, _, _, _, rfl, rfl, ?_⟩
    refine ⟨rfl, rfl, rfl, rfl, rfl, ?_⟩
    simp only [List.forall_mem_cons]
    exact ⟨rfl, rfl, rfl, rfl, nofun⟩
  | some master =>
    refine ⟨_, _, _, _, _, rfl, rfl, ?_⟩
    refine ⟨rfl, rfl, rfl, rfl, rfl, ?_⟩
    simp only [List.forall_mem_cons]
    exact ⟨rfl, rfl, rfl, rfl, nofun⟩

theorem objectClass_newGroupTrack (g : EventGraph) (ids : IdSupply) :
    ∀ o ∈ (g.newGroupTrack ids).1 :: (g.newGroupTrack ids).2.1, o.objectClass ≠ .timeline := by
  obtain ⟨t, group, chain, panner, fader, heq, -, hmixer⟩ :=
    isMixer_newGroupTrack g ids (g.newGroupTrack ids).1.id
  have hclasses : ((g.newGroupTrack ids).1 :: (g.newGroupTrack ids).2.1).map Object.objectClass =
      _ := (congrArg (List.map Object.objectClass) heq).trans hmixer.objectClass
  intro o ho hclass
  have hmem := hclasses ▸ List.mem_map_of_mem (f := Object.objectClass) ho
  rw [hclass] at hmem
  revert hmem
  decide

/-! ## The grafted event -/

theorem mem_of_firstOf? {c : ObjectClass} (h : g.firstOf? c = some o) :
    o ∈ g.nodes.values ∧ o.objectClass = c := by
  have hmem := List.mem_of_mem_head? h
  obtain ⟨hmem, hclass⟩ := List.mem_filter.1 hmem
  exact ⟨hmem, of_decide_eq_true hclass⟩

theorem IsKeyed.contains_of_mem (hkeyed : g.IsKeyed) (ho : o ∈ g.nodes.values) :
    g.contains o.id = true := OrderedMap.contains_of_get? (hkeyed.get?_eq_some_iff.2 ⟨ho, rfl⟩)

theorem contains_of_timeline? (hkeyed : g.IsKeyed) (h : g.timeline? = some id) :
    g.contains id = true := by
  unfold timeline? at h
  split at h
  · next id' hnamed =>
    obtain rfl := Option.some.inj h
    exact (Option.filter_eq_some_iff.1 hnamed).2
  · obtain ⟨o, ho, rfl⟩ := Option.map_eq_some_iff.1 h
    exact hkeyed.contains_of_mem (mem_of_firstOf? ho).1

/-- The last two steps make `multi` the only module of the track and of the timeline. -/
theorem Extends.play (hh : Extends f news g h) (hf : Keeps f) (hkeyed : g.IsKeyed)
    (hroot : g.contains g.root = true) (hnone : ∀ o ∈ news, o.objectClass ≠ .timeline)
    (hled : ∀ o ∈ g.nodes.values, ∀ id ∈ o.edge "timeline", id ∉ news.map Object.id)
    (track multi : ObjectId) :
    Extends (fun o => if g.Plays track o.id then (f o).setEdge "modules" [multi] else f o)
      (news.map (changeAt track fun o => o.setEdge "modules" [multi])) g
      ((h.setModules track multi).setTimeline multi) := by
  have hset := Keeps.setEdge "modules" (by decide) fun _ => [multi]
  have htrack := hh.update track hset
  have hids : (news.map (changeAt track fun o => o.setEdge "modules" [multi])).map Object.id =
      news.map Object.id := by
    rw [List.map_map]
    exact List.map_congr_left fun o _ => (hset.changeAt track).id o
  have htimeline : (h.setModules track multi).timeline? = g.timeline? := by
    refine htrack.timeline? ((hset.changeAt track).comp hf) hkeyed hroot ?_ (hids ▸ hled)
    intro o ho
    obtain ⟨q, hq, rfl⟩ := List.mem_map.1 ho
    rw [(hset.changeAt track).objectClass]
    exact hnone q hq
  unfold setTimeline
  rw [htimeline]
  cases hg : g.timeline? with
  | none =>
    refine cast (congrArg (Extends · _ _ _) (funext fun o => ?_)) htrack
    simp [changeAt, Plays, hf.id, hg]
  | some id =>
    have hlast := htrack.update id hset
    have hapart := hh.apart hf hkeyed (contains_of_timeline? hkeyed hg)
    rw [← hids] at hapart
    rw [map_changeAt_of_not_mem _ hapart] at hlast
    refine cast (congrArg (Extends · _ _ _) (funext fun o => ?_)) hlast
    have htwice : ∀ q : Object, (q.setEdge "modules" [multi]).setEdge "modules" [multi] =
        q.setEdge "modules" [multi] := by
      intro q
      unfold Object.setEdge
      rw [OrderedMap.insert_insert]
    have hplays : o.id = track ∨ o.id = id ↔ g.Plays track o.id := by
      unfold Plays
      rw [hg, Option.some_inj, eq_comm (a := id)]
    refine (changeAt_changeAt (u := fun o => o.setEdge "modules" [multi]) track id (fun _ => rfl)
      htwice (f o)).trans ?_
    rw [hf.id]
    exact if_congr hplays rfl rfl

/-- A group track is there, or made and named by the root. -/
theorem Extends.withGroupTrack (hh : Extends (fun o => o) news g h) (hkeyed : g.IsKeyed)
    (hroot : g.contains g.root = true) (hnone : ∀ o ∈ news, o.objectClass ≠ .groupTrack)
    (hnew : (h.nodes.keys ++ ids.minted (h.withGroupTrack ids).2.2).Nodup) :
    ∃ made, Extends (g.attach (h.withGroupTrack ids).2.1) (news ++ made) g
        (h.withGroupTrack ids).1 ∧
      (ids.minted (h.withGroupTrack ids).2.2).Perm (made.map Object.id) ∧
      ((∃ t, g.firstOf? .groupTrack = some t ∧ t.id = (h.withGroupTrack ids).2.1 ∧ made = []) ∨
        g.firstOf? .groupTrack = none ∧ (h.withGroupTrack ids).2.1 = (h.newGroupTrack ids).1.id ∧
          made = (h.newGroupTrack ids).1 :: (h.newGroupTrack ids).2.1) := by
  have hfirst : h.firstOf? .groupTrack = g.firstOf? .groupTrack :=
    (hh.firstOf? .self hnone).trans (congrFun Option.map_id_fun' _)
  unfold EventGraph.withGroupTrack at hnew ⊢
  rw [hfirst] at hnew ⊢
  cases ht : g.firstOf? .groupTrack with
  | some t =>
    refine ⟨[], ?_, ?_, Or.inl ⟨t, rfl, rfl, rfl⟩⟩
    · rw [List.append_nil]
      refine cast (congrArg (Extends · _ _ _) (funext fun o => ?_)) hh
      exact (if_neg fun hnot => by rw [ht] at hnot; cases hnot.2).symm
    · rw [IdSupply.minted_self]
      exact .refl _
  | none =>
    rw [ht] at hnew
    dsimp only at hnew ⊢
    rw [← ids_newGroupTrack] at hnew ⊢
    have hkeys := hh.keys .self hkeyed
    have hpush := hh.update g.root (Keeps.setEdge "groupTracks" (by decide)
      fun o => o.edge "groupTracks" ++ [(h.newGroupTrack ids).1.id])
    rw [map_changeAt_of_not_mem _ (hh.apart .self hkeyed hroot)] at hpush
    have hattach : Extends (g.attach (h.newGroupTrack ids).1.id) news g
        (h.update h.root fun o => o.pushEdge "groupTracks" (h.newGroupTrack ids).1.id) := by
      rw [hh.root]
      refine cast (congrArg (Extends · _ _ _) (funext fun o => ?_)) hpush
      unfold attach
      simp only [ht, and_true]
      rfl
    refine ⟨_, hattach.insertAll ?_, List.reverse_perm _, Or.inr ⟨rfl, rfl, rfl⟩⟩
    rw [hattach.keys (g.keeps_attach _) hkeyed, ← hkeys]
    exact ((List.reverse_perm _).append_left _).nodup_iff.1 hnew

/-- The track that is there or is made, and the timeline, get `multi` as their only module. -/
theorem Extends.withTrack (hh : Extends (fun o => o) news g h) (hkeyed : g.IsKeyed)
    (hroot : g.contains g.root = true)
    (hnone : ∀ o ∈ news, o.objectClass ≠ .groupTrack ∧ o.objectClass ≠ .timeline)
    (hnew : (h.nodes.keys ++ ids.minted (h.withGroupTrack ids).2.2).Nodup)
    (hled : ∀ o ∈ g.nodes.values, ∀ id ∈ o.edge "timeline",
      id ∉ news.map Object.id ++ ids.minted (h.withGroupTrack ids).2.2) (multi : ObjectId) :
    ∃ mixer, Extends (g.regraft (h.withGroupTrack ids).2.1 multi) (news ++ mixer) g
        (((h.withGroupTrack ids).1.setModules (h.withGroupTrack ids).2.1 multi).setTimeline multi) ∧
      (ids.minted (h.withGroupTrack ids).2.2).Perm (mixer.map Object.id) ∧
      ((∃ t, g.firstOf? .groupTrack = some t ∧ t.id = (h.withGroupTrack ids).2.1 ∧ mixer = []) ∨
        g.firstOf? .groupTrack = none ∧ ∃ t group chain panner fader,
          mixer = [t, group, chain, panner, fader] ∧ t.id = (h.withGroupTrack ids).2.1 ∧
          IsMixer multi t group chain panner fader) := by
  obtain ⟨made, hmade, hids, hchosen⟩ :=
    hh.withGroupTrack hkeyed hroot (fun o ho => (hnone o ho).1) hnew
  generalize (h.withGroupTrack ids).2.1 = track at hmade hchosen ⊢
  have hled' : ∀ o ∈ g.nodes.values, ∀ id ∈ o.edge "timeline",
      id ∉ (news ++ made).map Object.id := by
    intro o ho id hid hmem
    rw [List.map_append, List.mem_append, ← hids.mem_iff, ← List.mem_append] at hmem
    exact hled o ho id hid hmem
  rcases hchosen with ⟨t, ht, rfl, rfl⟩ | ⟨ht, rfl, rfl⟩
  · have hold := hh.apart .self hkeyed (hkeyed.contains_of_mem (mem_of_firstOf? ht).1)
    refine ⟨[], ?_, hids, Or.inl ⟨t, ht, rfl, rfl⟩⟩
    rw [List.append_nil] at hmade hled' ⊢
    have hplay := hmade.play (g.keeps_attach _) hkeyed hroot (fun o ho => (hnone o ho).2) hled'
      t.id multi
    rwa [map_changeAt_of_not_mem _ hold] at hplay
  · obtain ⟨t, group, chain, panner, fader, heq, hid, hmixer⟩ := isMixer_newGroupTrack h ids multi
    have hclass : ∀ o ∈ news ++ (h.newGroupTrack ids).1 :: (h.newGroupTrack ids).2.1,
        o.objectClass ≠ .timeline := List.forall_mem_append.2
      ⟨fun o ho => (hnone o ho).2, h.objectClass_newGroupTrack ids⟩
    have hplay := hmade.play (g.keeps_attach _) hkeyed hroot hclass hled'
      (h.newGroupTrack ids).1.id multi
    have honce : (((h.newGroupTrack ids).1 :: (h.newGroupTrack ids).2.1).map Object.id).Nodup :=
      hids.nodup_iff.1 (List.nodup_append.1 hnew).2.1
    have hnews : (h.newGroupTrack ids).1.id ∉ news.map Object.id := by
      intro hmem
      refine (List.nodup_append.1 hnew).2.2 _ ?_ _ (hids.mem_iff.2 List.mem_cons_self) rfl
      rw [hh.keys .self hkeyed]
      exact List.mem_append_right _ hmem
    rw [List.map_append, map_changeAt_of_not_mem _ hnews, List.map_cons,
      map_changeAt_of_not_mem _ (List.nodup_cons.1 honce).1, changeAt, if_pos rfl, heq] at hplay
    refine ⟨_, hplay, ?_, Or.inr ⟨ht, t, group, chain, panner, fader, rfl, hid, hmixer⟩⟩
    rw [← heq]
    exact hids

theorem IsSoundOf.forall {audio sounds : List Object}
    (hsounds : List.Forall₂ IsSoundOf audio sounds) :
    ∀ o ∈ sounds, o.objectClass = .singleSound ∧ o.edges.get? "modules" = none := by
  induction hsounds with
  | nil => nofun
  | cons hsound _ ih =>
    refine List.forall_mem_cons.2 ⟨⟨hsound.objectClass, ?_⟩, ih⟩
    unfold OrderedMap.get?
    rw [hsound.edges]
    rfl

theorem isMultiOf_multiSound (id : ObjectId) (first : PreparedMedia) (sounds : List Object) :
    IsMultiOf sounds (multiSound id first (sounds.map Object.id)) := ⟨rfl, rfl⟩

theorem IsMultiOf.plain {audio sounds : List Object} {multi : Object}
    (hsounds : List.Forall₂ IsSoundOf audio sounds) (hmulti : IsMultiOf sounds multi) :
    ∀ o ∈ sounds ++ [multi], o.objectClass ≠ .groupTrack ∧ o.objectClass ≠ .timeline := by
  intro o ho
  rcases List.mem_append.1 ho with ho | ho
  · rw [(IsSoundOf.forall hsounds o ho).1]
    decide
  · rw [List.mem_singleton.1 ho, hmulti.objectClass]
    decide

/-- Half of the ids go to the audio files, and half to the sounds. -/
theorem perm_minted_soundsFor (masterAssetFolder : ObjectId) (ids : IdSupply)
    (media : List PreparedMedia) :
    (ids.minted (soundsFor masterAssetFolder ids media).2).Perm
      (((soundsFor masterAssetFolder ids media).1.map Prod.fst).map Object.id ++
        ((soundsFor masterAssetFolder ids media).1.map Prod.snd).map Object.id) := by
  have hsplit := List.map_append_flatMap_perm (soundsFor masterAssetFolder ids media).1
    (fun p => p.1.id) fun p => [p.2.id]
  rw [← List.map_eq_flatMap] at hsplit
  rw [← flatMap_soundsFor, List.map_map, List.map_map]
  exact hsplit.symm

/-- The sounds and their multi sound come behind the nodes, and then the track. -/
theorem graft_cons (g : EventGraph) (first : PreparedMedia) (media : List PreparedMedia)
    (ids : IdSupply) (masterAssetFolder : ObjectId) {pairs : List (Object × Object)}
    {later : IdSupply} (hmade : soundsFor masterAssetFolder ids (first :: media) = (pairs, later)) :
    let multi := multiSound later.mint.1 first ((pairs.map Prod.snd).map Object.id)
    let tracked := (g.insertAll (pairs.map Prod.snd ++ [multi])).withGroupTrack later.mint.2
    g.graft (first :: media) ids masterAssetFolder =
      ((tracked.1.setModules tracked.2.1 multi.id).setTimeline multi.id, pairs.map Prod.fst,
        tracked.2.2) := by
  have hinsert : ∀ o, (g.insertAll (pairs.map Prod.snd)).insert o =
      g.insertAll (pairs.map Prod.snd ++ [o]) := by
    intro o
    unfold insertAll
    rw [List.foldl_append]
    rfl
  have hids : (pairs.map fun s => s.2.id) = (pairs.map Prod.snd).map Object.id :=
    List.map_map.symm
  unfold graft
  dsimp only
  rw [hmade]
  dsimp only
  rw [hids, hinsert]
  rfl

/-- Of ids behind old ones, those that go elsewhere can be left out. -/
theorem nodup_behind {olds minted audio news rest : List ObjectId}
    (h : (olds ++ (minted ++ rest)).Nodup) (hminted : minted.Perm (audio ++ news)) :
    (olds ++ news ++ rest).Nodup := by
  rw [((hminted.append_right rest).append_left olds).nodup_iff, List.append_assoc] at h
  rw [List.append_assoc]
  exact (List.Sublist.append_left (List.sublist_append_right audio _) olds).nodup h

/-- Media leave the nodes where they are, and put new ones behind them. All that is minted goes to
the audio files and to new nodes. -/
theorem extends_graft {media : List PreparedMedia} {audio : List Object}
    {masterAssetFolder : ObjectId} (hkeyed : g.IsKeyed) (hroot : g.contains g.root = true)
    (hmedia : media ≠ []) (hgraft : g.graft media ids masterAssetFolder = (h, audio, ids'))
    (hnew : (g.nodes.keys ++ ids.minted ids').Nodup)
    (hled : ∀ o ∈ g.nodes.values, ∀ id ∈ o.edge "timeline", id ∉ ids.minted ids') :
    ∃ track sounds multi mixer, g.Brings audio track sounds multi mixer ∧
      (ids.minted ids').Perm
        (audio.map Object.id ++ (sounds ++ multi :: mixer).map Object.id) ∧
      Extends (g.regraft track multi.id) (sounds ++ multi :: mixer) g h := by
  cases media with
  | nil => exact absurd rfl hmedia
  | cons first media =>
    have hsounds := forall₂_isSoundOf masterAssetFolder ids (first :: media)
    have hprecedes := precedes_soundsFor masterAssetFolder ids (first :: media)
    have hperm := perm_minted_soundsFor masterAssetFolder ids (first :: media)
    rcases hmade : soundsFor masterAssetFolder ids (first :: media) with ⟨pairs, later⟩
    rw [hmade] at hsounds hprecedes hperm
    rw [graft_cons g first media ids masterAssetFolder hmade] at hgraft
    have hmulti := isMultiOf_multiSound later.mint.1 first (pairs.map Prod.snd)
    generalize hsame : multiSound later.mint.1 first ((pairs.map Prod.snd).map Object.id) = multi
      at hgraft hmulti
    have hid : later.mint.1 = multi.id := congrArg Object.id hsame
    generalize pairs.map Prod.snd = sounds at hgraft hmulti hsounds hperm
    obtain ⟨rfl, rfl, rfl⟩ := hgraft
    -- the sounds and the multi sound get ids, and then the track
    have hminted : (ids.minted later.mint.2).Perm
        ((pairs.map Prod.fst).map Object.id ++ (sounds ++ [multi]).map Object.id) := by
      rw [IdSupply.minted_append hprecedes (.mint later), IdSupply.minted_mint, hid,
        List.map_append, ← List.append_assoc]
      exact hperm.append_right _
    have hlater := precedes_withGroupTrack (g.insertAll (sounds ++ [multi])) later.mint.2
    rw [IdSupply.minted_append (hprecedes.trans (.mint later)) hlater] at hnew hled ⊢
    have hbehind := nodup_behind hnew hminted
    have hfirst : Extends (fun o => o) (sounds ++ [multi]) g (g.insertAll (sounds ++ [multi])) :=
      (Extends.refl hkeyed).insertAll (List.nodup_append.1 hbehind).1
    rw [← hfirst.keys .self hkeyed] at hbehind
    obtain ⟨mixer, hlast, hids, hchosen⟩ := hfirst.withTrack hkeyed hroot (hmulti.plain hsounds)
      hbehind (fun o ho id hid hmem => hled o ho id hid ((List.mem_append.1 hmem).elim
        (fun hmem => List.mem_append_left _ (hminted.mem_iff.2 (List.mem_append_right _ hmem)))
        (List.mem_append_right _))) multi.id
    have hnews : sounds ++ [multi] ++ mixer = sounds ++ multi :: mixer := List.append_assoc _ _ _
    refine ⟨_, sounds, multi, mixer, ⟨hsounds, hmulti, hchosen⟩, ?_, hnews ▸ hlast⟩
    rw [← hnews, List.map_append, ← List.append_assoc]
    exact hminted.append hids

end EventGraph

end AudioProject
