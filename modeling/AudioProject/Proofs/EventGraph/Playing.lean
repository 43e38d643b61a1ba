import AudioProject.Proofs.EventGraph.Grafting

/-
  What plays in a grafted event, and what of it the root still leads to. The new modules of the
  track and the timeline may cut off other nodes, but the way to the first of these two stays
  (`Extends.reaches_or_plays`), so if all nodes were led to, all new ones are (`reaches_news`).
-/

namespace AudioProject.EventGraph

open Relation

variable {g h : EventGraph} {f : Object → Object} {news audio sounds mixer : List Object}
  {multi o : Object} {id track owner m : ObjectId}

theorem leads_of_edge {a b : ObjectId} (label : String) (ho : h.get? a = some o)
    (hb : b ∈ o.edge label) (hdefined : h.contains b = true) : Leads h.nodes a b :=
  ⟨o, ho, Object.mem_destinations_of_edge hb, hdefined⟩

theorem contains_of_reaches (hroot : g.contains g.root = true) (hid : g.Reaches id) :
    g.contains id = true := by
  unfold Reaches at hid
  cases hid with
  | refl => exact hroot
  | tail _ hlast =>
    obtain ⟨_, _, _, hdefined⟩ := hlast
    exact hdefined

/-! ## Paths -/

theorem destinations_attach {d : ObjectId} (hd : d ∈ o.destinations) :
    d ∈ (g.attach track o).destinations := by
  unfold attach
  split
  · exact Object.destinations_pushEdge hd
  · exact hd

/-- A way through the event is still there, or leads past a node that plays. -/
theorem Extends.reaches_or_plays (hh : Extends (g.regraft track m) news g h) (hkeyed : g.IsKeyed)
    (hid : g.Reaches id) : h.Reaches id ∨ ∃ owner, g.Plays track owner ∧ h.Reaches owner := by
  have hkeeps := g.keeps_regraft track m
  unfold Reaches at hid
  induction hid with
  | refl =>
    refine Or.inl ?_
    rw [← hh.root]
    exact .refl
  | @tail a b _ hlast ih =>
    rcases ih with ha | howner
    · obtain ⟨o, ho, hb, hdefined⟩ := hlast
      by_cases hplays : g.Plays track a
      · exact Or.inr ⟨a, hplays, ha⟩
      · refine Or.inl (ha.tail ⟨_, hh.get?_of_get? hkeeps hkeyed ho, ?_,
          (hh.contains_iff hkeeps hkeyed).2 (Or.inl hdefined)⟩)
        rw [regraft, (hkeyed.get?_eq_some_iff.1 ho).2, if_neg hplays]
        exact destinations_attach hb
    · exact Or.inr howner

/-! ## Modules -/

theorem get?_modules_attach (g : EventGraph) (track : ObjectId) (o : Object) :
    (g.attach track o).edges.get? "modules" = o.edges.get? "modules" := by
  unfold attach
  split
  · exact (Object.get?_pushEdge _ _ _ _).trans (if_neg (by decide))
  · rfl

theorem get?_modules_regraft (g : EventGraph) (track m : ObjectId) (o : Object) :
    (g.regraft track m o).edges.get? "modules" =
      if g.Plays track o.id then some [m] else o.edges.get? "modules" := by
  unfold regraft
  split
  · exact (Object.get?_setEdge _ _ _ _).trans (if_pos rfl)
  · exact g.get?_modules_attach track o

theorem IsMultiOf.modules (hmulti : IsMultiOf sounds multi) :
    multi.edges.get? "modules" = none := by
  unfold OrderedMap.get?
  rw [hmulti.edges]
  rfl

/-- Of the new nodes only the track has modules, if it is one of them. -/
theorem Brings.modules (hbrings : g.Brings audio track sounds multi mixer)
    (hh : Extends (g.regraft track multi.id) (sounds ++ multi :: mixer) g h) (hkeyed : g.IsKeyed)
    (ho : o ∈ sounds ++ multi :: mixer) :
    o.edges.get? "modules" = if g.Plays track o.id then some [multi.id] else none := by
  have hkeeps := g.keeps_regraft track multi.id
  have hnew : g.contains o.id ≠ true := fun hold =>
    hh.apart hkeeps hkeyed hold (List.mem_map_of_mem ho)
  have hplays : g.Plays track o.id ↔ o.id = track :=
    or_iff_left fun htimeline => hnew (contains_of_timeline? hkeyed htimeline)
  have hsilent : o ∉ mixer → o.edges.get? "modules" = none := by
    intro hnot
    rcases List.mem_append.1 ho with hsound | hother
    · exact (IsSoundOf.forall hbrings.forall₂ o hsound).2
    · rcases List.mem_cons.1 hother with rfl | hmixer
      · exact hbrings.isMultiOf.modules
      · exact absurd hmixer hnot
  rcases hbrings.track with ⟨t, ht, rfl, rfl⟩ |
    ⟨-, t, group, chain, panner, fader, rfl, rfl, hmixer⟩
  · have hold : o.id ≠ t.id := fun hsame =>
      hnew (hsame ▸ hkeyed.contains_of_mem (mem_of_firstOf? ht).1)
    rw [if_neg (mt hplays.1 hold), hsilent List.not_mem_nil]
  · by_cases hsame : o = t
    · subst hsame
      rw [if_pos (hplays.2 rfl)]
      unfold OrderedMap.get?
      rw [hmixer.edges]
      rfl
    · have honce : ((sounds ++ multi :: [t, group, chain, panner, fader]).map Object.id).Nodup := by
        have hkeys := h.nodes.nodup
        change h.nodes.keys.Nodup at hkeys
        rw [hh.keys hkeeps hkeyed] at hkeys
        exact (List.nodup_append.1 hkeys).2.1
      have hid : o.id ≠ t.id := fun hid =>
        hsame (List.inj_on_of_nodup_map honce ho (by simp) hid)
      rw [if_neg (mt hplays.1 hid)]
      by_cases hmem : o ∈ [t, group, chain, panner, fader]
      · exact hmixer.silent o ((List.mem_cons.1 hmem).resolve_left hsame)
      · exact hsilent hmem

/-- In a grafted event the nodes that were chosen play the new media, and the others what they
played. -/
theorem Brings.get?_modules (hbrings : g.Brings audio track sounds multi mixer)
    (hh : Extends (g.regraft track multi.id) (sounds ++ multi :: mixer) g h) (hkeyed : g.IsKeyed)
    (ho : h.get? id = some o) :
    o.edges.get? "modules" = if g.Plays track id then some [multi.id]
      else (g.get? id).bind (·.edges.get? "modules") := by
  have hkeeps := g.keeps_regraft track multi.id
  rcases (hh.get?_eq_some_iff hkeeps hkeyed).1 ho with ⟨q, hq, rfl⟩ | ⟨hnew, rfl⟩
  · rw [get?_modules_regraft, (hkeyed.get?_eq_some_iff.1 hq).2, hq]
    rfl
  · have hnone : g.get? o.id = none := by
      refine Option.eq_none_iff_forall_ne_some.2 fun q hq => ?_
      exact hh.apart hkeeps hkeyed (OrderedMap.contains_of_get? hq) (List.mem_map_of_mem hnew)
    rw [hbrings.modules hh hkeyed hnew, hnone]
    rfl

theorem get?_regraft_of_ne {label : String} (hlabel : label ≠ "modules") :
    (g.regraft track m o).edges.get? label = (g.attach track o).edges.get? label := by
  unfold regraft
  split
  · exact (Object.get?_setEdge _ _ _ _).trans (if_neg hlabel.symm)
  · rfl

/-- Media change no other edges. -/
theorem get?_regraft {label : String} (hlabel : label ∉ ["groupTracks", "modules"]) :
    (g.regraft track m o).edges.get? label = o.edges.get? label := by
  simp only [List.mem_cons, List.not_mem_nil, or_false, not_or] at hlabel
  rw [get?_regraft_of_ne hlabel.2]
  unfold attach
  split
  · exact (Object.get?_pushEdge _ _ _ _).trans (if_neg (Ne.symm hlabel.1))
  · rfl

/-- The root names a new track behind those that it named. -/
theorem get?_groupTracks_regraft (ho : o.id = g.root) (hnone : g.firstOf? .groupTrack = none) :
    (g.regraft track m o).edges.get? "groupTracks" = some (o.edge "groupTracks" ++ [track]) := by
  rw [get?_regraft_of_ne (by decide), attach, if_pos ⟨ho, hnone⟩]
  exact (Object.get?_pushEdge _ _ _ _).trans (if_pos rfl)

/-! ## New nodes -/

/-- The classes of new nodes. -/
theorem Brings.objectClass (hbrings : g.Brings audio track sounds multi mixer)
    (ho : o ∈ sounds ++ multi :: mixer) : o = multi ∨ o.objectClass ∈ [ObjectClass.singleSound,
      .groupTrack, .eventMixerGroup, .mixerBusEffectChain, .mixerBusPanner, .mixerBusFader] := by
  rcases List.mem_append.1 ho with hsound | hother
  · rw [(IsSoundOf.forall hbrings.forall₂ o hsound).1]
    exact Or.inr List.mem_cons_self
  rcases List.mem_cons.1 hother with rfl | hmixer
  · exact Or.inl rfl
  rcases hbrings.track with ⟨-, -, -, rfl⟩ | ⟨-, t, group, chain, panner, fader, rfl, -, hmade⟩
  · cases hmixer
  · have hmem := hmade.objectClass ▸ List.mem_map_of_mem (f := Object.objectClass) hmixer
    exact Or.inr (List.mem_cons_of_mem _ hmem)

section

variable (hbrings : g.Brings audio track sounds multi mixer)
  (hh : Extends (g.regraft track multi.id) (sounds ++ multi :: mixer) g h) (hkeyed : g.IsKeyed)
  (hroot : g.contains g.root = true)
include hbrings hh hkeyed

/-- The multi sound leads to its sounds. -/
theorem Brings.reaches_of_multi (hmulti : h.Reaches multi.id) (ho : o ∈ multi :: sounds) :
    h.Reaches o.id := by
  have hkeeps := g.keeps_regraft track multi.id
  rcases List.mem_cons.1 ho with rfl | hsound
  · exact hmulti
  · have hget := hh.get?_of_mem hkeeps hkeyed (List.mem_append_right _ List.mem_cons_self)
    have hsounds := hh.get?_of_mem hkeeps hkeyed (List.mem_append_left _ hsound)
    refine hmulti.tail (leads_of_edge "sounds" hget ?_ (OrderedMap.contains_of_get? hsounds))
    have hedge : multi.edges.get? "sounds" = some (sounds.map Object.id) := by
      unfold OrderedMap.get?
      rw [hbrings.isMultiOf.edges]
      rfl
    rw [Object.edge, hedge]
    exact List.mem_map_of_mem hsound

include hroot

/-- Whatever plays leads to the multi sound and its sounds. -/
theorem Brings.reaches_sounds (hplays : g.Plays track owner) (howner : h.Reaches owner)
    (ho : o ∈ multi :: sounds) : h.Reaches o.id := by
  have hkeeps := g.keeps_regraft track multi.id
  have hroot' : h.contains h.root = true := by
    rw [hh.root]
    exact (hh.contains_iff hkeeps hkeyed).2 (Or.inl hroot)
  obtain ⟨q, hq⟩ := Option.isSome_iff_exists.1 (contains_of_reaches hroot' howner)
  have hmodules : q.edges.get? "modules" = some [multi.id] := by
    rw [hbrings.get?_modules hh hkeyed hq, if_pos hplays]
  have hget := hh.get?_of_mem hkeeps hkeyed (List.mem_append_right _ List.mem_cons_self)
  refine hbrings.reaches_of_multi hh hkeyed (howner.tail (leads_of_edge "modules" hq ?_
    (OrderedMap.contains_of_get? hget))) ho
  rw [Object.edge, hmodules]
  exact List.mem_singleton_self _

/-- A track that was made is named by the root, and leads to the nodes that it needs. -/
theorem Brings.reaches_mixer (hnone : g.firstOf? .groupTrack = none) :
    h.Reaches track ∧ ∀ o ∈ mixer, h.Reaches o.id := by
  have hkeeps := g.keeps_regraft track multi.id
  rcases hbrings.track with ⟨t, ht, -⟩ | ⟨-, t, group, chain, panner, fader, rfl, rfl, hmixer⟩
  · rw [hnone] at ht
    cases ht
  have hnew : ∀ o ∈ [t, group, chain, panner, fader], h.get? o.id = some o := fun o ho =>
    hh.get?_of_mem hkeeps hkeyed (List.mem_append_right _ (List.mem_cons_of_mem _ ho))
  have hleads : ∀ o ∈ [t, group, chain, panner, fader], ∀ q ∈ [t, group, chain, panner, fader],
      ∀ label, q.id ∈ o.edge label → Leads h.nodes o.id q.id := fun o ho q hq label hlabel =>
    leads_of_edge label (hnew o ho) hlabel (OrderedMap.contains_of_get? (hnew q hq))
  have htrack : h.Reaches t.id := by
    obtain ⟨o, ho⟩ := Option.isSome_iff_exists.1 hroot
    have hget := hh.get?_of_get? hkeeps hkeyed ho
    rw [← hh.root] at hget
    refine .single (leads_of_edge "groupTracks" hget ?_
      (OrderedMap.contains_of_get? (hnew t List.mem_cons_self)))
    rw [Object.edge, get?_groupTracks_regraft (hkeyed.get?_eq_some_iff.1 ho).2 hnone]
    exact List.mem_append_right _ (List.mem_singleton_self _)
  have hgroup : h.Reaches group.id := by
    refine htrack.tail (hleads t (by simp) group (by simp) "mixerGroup" ?_)
    rw [Object.edge, OrderedMap.get?, hmixer.edges]
    exact List.mem_singleton_self _
  have hchain : h.Reaches chain.id :=
    hgroup.tail (hleads group (by simp) chain (by simp) "effectChain" (by simp [hmixer.chained]))
  have hpanner : h.Reaches panner.id :=
    hgroup.tail (hleads group (by simp) panner (by simp) "panner" (by simp [hmixer.panned]))
  have hfader : h.Reaches fader.id :=
    hchain.tail (hleads chain (by simp) fader (by simp) "effects" (by simp [hmixer.faded]))
  refine ⟨htrack, ?_⟩
  simp only [List.forall_mem_cons]
  exact ⟨htrack, hgroup, hchain, hpanner, hfader, fun o ho => absurd ho List.not_mem_nil⟩

/-- If the root led to all nodes, it leads to all new ones. -/
theorem Brings.reaches_news (hall : ∀ id, g.contains id = true → g.Reaches id)
    (ho : o ∈ sounds ++ multi :: mixer) : h.Reaches o.id := by
  have howner : ∃ owner, g.Plays track owner ∧ h.Reaches owner := by
    rcases hbrings.track with ⟨t, ht, rfl, -⟩ | ⟨hnone, -⟩
    · rcases hh.reaches_or_plays hkeyed (hall t.id (hkeyed.contains_of_mem (mem_of_firstOf? ht).1))
        with hreaches | howner
      · exact ⟨t.id, Or.inl rfl, hreaches⟩
      · exact howner
    · exact ⟨track, Or.inl rfl, (hbrings.reaches_mixer hh hkeyed hroot hnone).1⟩
  obtain ⟨owner, hplays, howner⟩ := howner
  rcases List.mem_append.1 ho with hsound | hother
  · exact hbrings.reaches_sounds hh hkeyed hroot hplays howner (List.mem_cons_of_mem _ hsound)
  rcases List.mem_cons.1 hother with rfl | hmixer
  · exact hbrings.reaches_sounds hh hkeyed hroot hplays howner List.mem_cons_self
  · rcases hbrings.track with ⟨-, -, -, rfl⟩ | ⟨hnone, -⟩
    · cases hmixer
    · exact (hbrings.reaches_mixer hh hkeyed hroot hnone).2 o hmixer

end

end AudioProject.EventGraph
