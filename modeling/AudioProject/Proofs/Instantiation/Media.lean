import AudioProject.Proofs.AssetPath
import AudioProject.Proofs.Instantiation.Duplicates
import AudioProject.Proofs.Instantiation.Playback

/-
  The media of a new event are where its objects say. The object of each audio file names the place
  of its media and has a document of its own, and the sounds of the event's multi sound follow the
  media one by one; at the place is a file with the bytes of the source: `media_integrity`.
-/

namespace AudioProject

open FileTree AudioProject.Path Store

/-! ## Paths of media -/

/-- The asset path of a file, below the assets directory, is the place of the file in its folder. -/
theorem Layout.join_joinFile (l : Layout) (p : AssetPath) {name : String} (hname : IsName name) :
    l.assetsRoot.join (p.joinFile name) = (l.assetDir p).join name := by
  have hplain : ∀ n ∈ p.components ++ [name], IsName n := by
    intro n hn
    rcases List.mem_append.1 hn with hn | hn
    · exact AssetPath.isName hn
    · exact List.mem_singleton.1 hn ▸ hname
  rw [p.joinFile_eq, join_joined _ hplain (by simp), descend_concat]
  rfl

namespace Instantiation

variable {P : Location → Prop} {s : Store} {r : Request} {base : Location} {t₀ t : FileTree}
  {os : List Object} {probing : Bool} {p : Plan}

/-- Where the file of a media source goes. -/
def mediaDest (l : Layout) (m : MediaSource) : Path :=
  (l.assetDir m.target).join (m.source.fileName?.getD "")

theorem PlansCopy.dest_eq {m : MediaSource} {copy : PlannedCopy} (h : PlansCopy s t m copy) :
    copy.dest = mediaDest s.layout m := by
  obtain ⟨name, hname, hdest⟩ := h.dest
  rw [hdest, mediaDest, hname]
  rfl

/-! ## The media of an event -/

/-- The object of an audio file names the place of its media, and has a document of its own. -/
structure AudioInPlace (s : Store) (t : FileTree) (m : MediaSource) (o : Object) : Prop where
  objectClass : o.objectClass = .audioFile
  assetPath : ∃ text, o.property? "assetPath" = some text ∧
    s.layout.assetsRoot.join text = mediaDest s.layout m
  document : ∃ path, s.layout.objectPath? .audioFile o.id = some path ∧
    readDocument t path = .ok ⟨s.model, [o]⟩

theorem forall₂_audioInPlace {media : List MediaSource}
    (hnames : ∀ m ∈ media, ∃ name, m.source.fileName? = some name)
    (haudio : List.Forall₂ (fun m o => IsAudioFile (prepare t₀ probing m) o) media os)
    (hdocuments : ∀ o ∈ os, HasDocument P s [o] t) :
    List.Forall₂ (AudioInPlace s t) media os := by
  induction haudio with
  | nil => exact .nil
  | @cons m o media os ho _ ih =>
    rw [List.forall_mem_cons] at hnames hdocuments
    refine .cons ⟨ho.objectClass, ⟨_, ho.assetPath, ?_⟩, ?_⟩ (ih hnames.2 hdocuments.2)
    · obtain ⟨name, hname⟩ := hnames.1
      unfold prepare mediaDest
      rw [hname]
      exact s.layout.join_joinFile m.target (isName_of_fileName? hname)
    · obtain ⟨o', rest, path, hos, hpath, hread, -⟩ := hdocuments.1
      obtain ⟨rfl, rfl⟩ := List.cons.inj hos
      rw [ho.objectClass] at hpath
      refine ⟨path, hpath, (readDocument_written hread).trans ?_⟩
      have hnamed : o.named = o := Object.named_eq (by rw [ho.objectClass]; rfl)
      rw [List.map_singleton, hnamed]

theorem fileName?_of_plansCopy {media : List MediaSource} {copies : List PlannedCopy}
    (h : List.Forall₂ (PlansCopy s t) media copies) :
    ∀ m ∈ media, ∃ name, m.source.fileName? = some name := by
  induction h with
  | nil => simp
  | cons hm _ ih =>
    obtain ⟨name, hname, -⟩ := hm.dest
    exact List.forall_mem_cons.2 ⟨⟨name, hname⟩, ih⟩

/-- Paths below the assets directory that differ lead to different places. -/
theorem nodup_places (hanchored : Anchored t s.layout base) {paths : List Path}
    (hassets : ∀ d ∈ paths, ∃ names, d = s.layout.root.descend names ∧ IsAssets names)
    (hlocated : ∀ d ∈ paths, ∃ j, t.locate d = .ok j) (hnodup : paths.Nodup) :
    (paths.map t.locate).Nodup := by
  refine List.Nodup.map_on (fun d hd d' hd' hsame => ?_) hnodup
  obtain ⟨names, rfl, hplain⟩ := hassets d hd
  obtain ⟨names', rfl, hplain'⟩ := hassets d' hd'
  obtain ⟨j, hj⟩ := hlocated _ hd
  have hplace := eq_of_locate_descend hplain.plain hanchored.root hj
  have hplace' := eq_of_locate_descend hplain'.plain hanchored.root (hsame ▸ hj)
  rw [List.append_cancel_left (hplace.symm.trans hplace')]

/-- The ids that are minted for a request are new to it and to its template. -/
def MintsNew (s : Store) (t : FileTree) (probing : Bool) (r : Request) (ids : IdSupply) : Prop :=
  ∀ g p ids', Resolves s t r g → plan s t probing r ids = .ok p ids' →
    MintsFresh r ids ids' ∧ g.NewFor ((eventId r ids).2.minted ids')

/-- The media of a request are where the objects of its plan say. -/
structure MediaInPlace (base : Location) (op : String) (s : Store) (r : Request) (p : Plan)
    (t t' : FileTree) (sounds : List Object) (multi : Object) : Prop where
  copies : List.Forall₂ (fun m c => c.source = m.source ∧ c.dest = mediaDest s.layout m)
    r.media p.copies
  /-- Copied or reused, a file holds the bytes of its source. -/
  files : ∀ c ∈ p.copies, ∃ b, Duplicate base op t t' c.source c.dest b
  /-- No two go to the same place. -/
  apart : ((p.copies.map PlannedCopy.dest).map t'.locate).Nodup
  audio : List.Forall₂ (AudioInPlace s t') r.media p.audioFiles
  isSoundOf : List.Forall₂ EventGraph.IsSoundOf p.audioFiles sounds
  isMultiOf : EventGraph.IsMultiOf sounds multi

/-- The document of an event that is a copy `e` of its template, with a multi sound that it plays
on `track` and its timeline. -/
structure EventInPlace (s : Store) (p : Plan) (t : FileTree) (e : EventGraph) (track : ObjectId)
    (sounds : List Object) (multi : Object) : Prop where
  document : ∃ path, s.eventPath? p.eventId = some path ∧
    readDocument t path = .ok ⟨s.model, p.event.objects.map Object.named⟩
  /-- Other multi sounds are those of the template. -/
  one : ∀ o ∈ p.event.objects.map Object.named, o.objectClass = .multiSound →
    o = multi ∨ e.contains o.id = true
  /-- Where the multi sound or a node that plays it is, there are all its sounds. -/
  present : ∀ id, p.event.contains id = true → id = multi.id ∨ e.Plays track id →
    ∀ o ∈ multi :: sounds, o ∈ p.event.objects.map Object.named
  /-- They are there if the root led to all nodes of the copy. -/
  attached : (∀ id, e.contains id = true → e.Reaches id) →
    ∀ o ∈ multi :: sounds, o ∈ p.event.objects.map Object.named

theorem GraftsInto.mem_document {e grafted : EventGraph} {media : List PreparedMedia}
    {track : ObjectId} {sounds mixer : List Object} {multi o : Object}
    (hg : GraftsInto e media p track sounds multi mixer grafted) (ho : o ∈ multi :: sounds)
    (hget : p.event.get? o.id = some o) : o ∈ p.event.objects.map Object.named := by
  have hknown : o.objectClass.isKnown = true := by
    rcases List.mem_cons.1 ho with rfl | ho
    · rw [hg.brings.isMultiOf.objectClass]
      rfl
    · rw [(EventGraph.IsSoundOf.forall hg.brings.forall₂ o ho).1]
      rfl
  exact List.mem_map.2 ⟨o, EventGraph.mem_objects_of_get? hget, Object.named_eq hknown⟩

/-- The document of an event is at the path of its id. -/
theorem document_of_hasDocument (hevent : p.event.HasEvent)
    (h : HasDocument P s p.event.objects t) : ∃ path, s.eventPath? p.eventId = some path ∧
      t.has path = true ∧ readDocument t path = .ok ⟨s.model, p.event.objects.map Object.named⟩ := by
  obtain ⟨o, rest, path, hobjects, hpath, hread, -⟩ := h
  obtain ⟨root, others, hobjects', hid, hclass⟩ := EventGraph.objects_eq_cons hevent
  obtain ⟨rfl, rfl⟩ := List.cons.inj (hobjects.symm.trans hobjects')
  rw [hclass, hid] at hpath
  obtain ⟨j, hj, hcontent⟩ := read_eq_ok.1 hread
  refine ⟨path, hpath, has_of_locate hj ?_, readDocument_written hread⟩
  rw [contentAt?_eq_some.1 hcontent]
  nofun

theorem GraftsInto.eventInPlace {e grafted : EventGraph} {media : List PreparedMedia}
    {track : ObjectId} {sounds mixer : List Object} {multi : Object}
    (hg : GraftsInto e media p track sounds multi mixer grafted) (hevent : p.event.HasEvent)
    (hdocument : HasDocument P s p.event.objects t) :
    EventInPlace s p t e track sounds multi where
  document := by
    obtain ⟨path, hpath, -, hread⟩ := document_of_hasDocument hevent hdocument
    exact ⟨path, hpath, hread⟩
  one := by
    intro o ho hclass
    obtain ⟨q, hq, rfl⟩ := List.mem_map.1 ho
    obtain ⟨id, hget⟩ := EventGraph.mem_objects hq
    rcases hg.of_get? hget with hnew | ⟨old, hold, rfl⟩
    · rcases hg.brings.objectClass hnew with rfl | hmem
      · exact Or.inl (Object.named_eq (by rw [hg.brings.isMultiOf.objectClass]; rfl))
      · exfalso
        have hclasses : ∀ c ∈ [ObjectClass.singleSound, .groupTrack, .eventMixerGroup,
            .mixerBusEffectChain, .mixerBusPanner, .mixerBusFader],
            .ofName c.name ≠ ObjectClass.multiSound := by decide
        exact hclasses q.objectClass hmem hclass
    · refine Or.inr (OrderedMap.contains_of_get? (v := old) ?_)
      show e.get? (e.regraft track multi.id old).id = some old
      rw [(e.keeps_regraft track multi.id).id, (hg.keyed.get?_eq_some_iff.1 hold).2]
      exact hold
  present := fun id hdefined hplays o ho => by
    refine hg.mem_document ho ?_
    rcases hplays with rfl | hplays
    · exact hg.present_of_multi hdefined ho
    · exact hg.present hdefined hplays ho
  attached := fun hall o ho => hg.mem_document ho (hg.attached (mem_news ho)
    (hg.brings.reaches_news hg.grows hg.keyed hg.hasRoot hall (mem_news ho))).1

/-- After an instantiation that went well each media file of the request is at a place of its own
with the bytes of its source, and the sounds of the event lead there one by one. -/
theorem media_integrity {h h' : Host} {id : ObjectId}
    (hanchored : Anchored h.files s.layout base)
    (hassets : Settings.checkAssetsDir s.layout.assetsDir = .ok ())
    (hop : '/' ∉ (h.operationName h.operations).toList)
    (hids : MintsNew s h.files probing r h.ids) (hmedia : r.media ≠ [])
    (hrun : instantiate s probing r h = .ok id h') :
    ∃ g p ids' track sounds multi, Resolves s h.files r g ∧
      plan s h.files probing r h.ids = .ok p ids' ∧ p.eventId = id ∧
      MediaInPlace base (h.operationName h.operations) s r p h.files h'.files sounds multi ∧
      EventInPlace s p h'.files (copyFor r g (eventId r h.ids).1 (eventId r h.ids).2) track
        sounds multi := by
  cases hplan : plan s h.files probing r h.ids with
  | error e ids =>
    rw [instantiate_of_plan_error hplan] at hrun
    cases hrun
  | ok p ids' =>
    obtain ⟨hid, hcopies, hdocuments⟩ :=
      filesInPlace_of_instantiate hanchored hassets hop hplan hrun
    obtain ⟨g, copies, hresolves, hplanned, hassemble⟩ := plan_eq_ok.1 hplan
    obtain rfl : p.copies = copies := (congrArg (fun q => q.1.copies) hassemble).symm
    obtain ⟨hfresh, hnew⟩ := hids g p ids' hresolves hplan
    obtain ⟨-, ⟨o, hget, -⟩, hkeyed⟩ := hasEvent_of_loadEvent hresolves.template
    obtain ⟨_, _, -, hgraft, -⟩ := graft_of_plan hplan
    have hrest := (EventGraph.precedes_graft_copy hgraft).1.trans
      (EventGraph.precedes_graft_copy hgraft).2
    have hroot := IdSupply.not_mem_minted
      (isFresh_eventId hfresh ((precedes_eventId r h.ids).trans hrest)) hrest
    have hprepared : r.media.map (prepare h.files probing) ≠ [] := by simpa using hmedia
    obtain ⟨track, sounds, multi, mixer, grafted, hgrafts⟩ := exists_grafted hkeyed
      (OrderedMap.contains_of_get? hget) hnew hroot hprepared hassemble
    have hplans := forall₂_planCopies hplanned
    have hanchored' := ((instantiate_documents hanchored hassets).1 id h' hrun).1
    have hplaces : ((p.copies.map PlannedCopy.dest).map h'.files.locate).Nodup := by
      refine nodup_places hanchored' (List.forall_mem_map.2 fun c hc => ?_)
        (List.forall_mem_map.2 fun c hc => ?_) (reads_of_planCopies hplanned).2.1
      · exact exists_names_of_plans (plans_of_plan hplan).1 hassets hc
      · obtain ⟨b, hb⟩ := hcopies c hc
        obtain ⟨-, j, hj, -⟩ := hb.stored
        exact ⟨j, hj⟩
    refine ⟨g, p, ids', track, sounds, multi, hresolves, rfl, hid, ?_,
      hgrafts.eventInPlace (event_of_plan hplan hfresh).1 hdocuments.event⟩
    exact ⟨hplans.imp fun m c hc => ⟨hc.source, hc.dest_eq⟩, hcopies, hplaces,
      forall₂_audioInPlace (fileName?_of_plansCopy hplans)
        (List.forall₂_map_left_iff.1 hgrafts.audioFiles) hdocuments.audio,
      hgrafts.brings.forall₂, hgrafts.brings.isMultiOf⟩

/-! ### A peal of a bell and a gong -/

/-- Names for two audio files and their sounds, for the multi sound and for a group track. -/
def pealIds : IdSupply where
  nth n := [⟨"ring", by decide⟩, ⟨"strike", by decide⟩, ⟨"dong", by decide⟩,
    ⟨"stroke", by decide⟩, ⟨"changes", by decide⟩, ⟨"fader", by decide⟩, ⟨"panner", by decide⟩,
    ⟨"chain", by decide⟩, ⟨"group", by decide⟩].getD n ⟨"track", by decide⟩

/-- The shop with a gong beside the bell, which is among its media already. -/
def towerHost : Host :=
  { shopHost with
    files := { nodes := ⟨shopHost.files.nodes.toList ++ [(["gong.wav"], .file "bong".toUTF8),
      (["p", "Assets"], .directory), (["p", "Assets", "gong.wav"], .file "bong".toUTF8)],
      by decide +kernel⟩ }
    ids := pealIds
    faults := {} }

def angelusId : ObjectId := ⟨"angelus", by decide⟩

/-- An event like the bell, which plays both. -/
def peal : Request :=
  { order with
    eventId? := some angelusId
    media := [⟨⟨"/bell.wav"⟩, .root⟩, ⟨⟨"/gong.wav"⟩, .root⟩] }

theorem resolves_peal : Resolves shop towerHost.files peal bellGraph where
  template := loadEvent_bell (by decide) rfl
  folder := by decide
  bank := by decide
  bus := by decide
  media := by decide
  unused := by
    intro id hid
    cases hid
    decide

def gongCopy : PlannedCopy := ⟨⟨"/gong.wav"⟩, ⟨"/p/Assets/gong.wav"⟩, true⟩

def tunes : List PreparedMedia := [⟨"bell.wav", none⟩, ⟨"gong.wav", none⟩]

/-- The bell with the new sounds, its audio files and the ids that are left. -/
def pealGraft : EventGraph × List Object × IdSupply :=
  (copyFor peal bellGraph angelusId pealIds).graft tunes (bellGraph.copy angelusId pealIds).2.2
    shop.masters.assetFolder

theorem reached_peal : pealGraft.1.reached =
    [⟨"fader", by decide⟩, ⟨"stroke", by decide⟩, ⟨"strike", by decide⟩, ⟨"panner", by decide⟩,
      ⟨"chain", by decide⟩, ⟨"changes", by decide⟩, ⟨"group", by decide⟩, ⟨"track", by decide⟩,
      angelusId] := by cbv

/-- The root leads to all nodes. -/
theorem prune_peal : pealGraft.1.prune = (pealGraft.1, 0) := by
  unfold EventGraph.prune EventGraph.reachable
  rw [reached_peal]
  decide

def pealPlan : Plan := ⟨pealGraft.1, pealGraft.2.1, [bellCopy, gongCopy], 1, 0⟩

theorem plan_peal :
    plan shop towerHost.files false peal towerHost.ids = .ok pealPlan pealGraft.2.2 := by
  have htunes : peal.media.map (prepare towerHost.files false) = tunes := by decide
  have hassemble : assemble shop peal (bellGraph.copy angelusId pealIds).1 1 [bellCopy, gongCopy]
      tunes (bellGraph.copy angelusId pealIds).2.2 =
      (⟨pealGraft.1.prune.1, pealGraft.2.1, [bellCopy, gongCopy], 1, pealGraft.1.prune.2⟩,
        pealGraft.2.2) := rfl
  refine plan_eq_ok.2 ⟨bellGraph, [bellCopy, gongCopy], resolves_peal, by decide, ?_⟩
  rw [prune_peal] at hassemble
  rw [htunes]
  exact hassemble

theorem execute_peal :
    ∃ c, execute shop pealPlan (Instantiation.start towerHost pealGraft.2.2) = .ok () c := by
  have hruns : Action.isOk
      (execute shop pealPlan (Instantiation.start towerHost pealGraft.2.2)) = true := by
    decide +kernel
  obtain ⟨_, c, h⟩ := Action.isOk_iff.1 hruns
  exact ⟨c, h⟩

theorem mintsNew_peal : MintsNew shop towerHost.files false peal towerHost.ids := by
  intro g p ids' hresolves hplan
  obtain ⟨rfl, rfl⟩ := EStateM.Result.ok.inj (plan_peal.symm.trans hplan)
  obtain rfl : bellGraph = g := Except.ok.inj (resolves_peal.template.symm.trans hresolves.template)
  have hissued : pealGraft.2.2.issued = 10 := by decide
  refine ⟨⟨fun m n _ hlt hn => ?_, fun id hid n _ hn => ?_⟩, by decide, by decide,
    by decide⟩
  · have hall : ∀ n < 10, ∀ m < n, towerHost.ids.nth m ≠ towerHost.ids.nth n := by decide
    exact hall n (hissued ▸ hn) m hlt
  · cases hid
    have hall : ∀ n < 10, pealGraft.2.2.nth n ≠ angelusId := by decide
    exact hall n (hissued ▸ hn)

theorem mintsFresh_peal (p : Plan) (ids' : IdSupply)
    (hplan : plan shop towerHost.files false peal towerHost.ids = .ok p ids') :
    MintsFresh peal towerHost.ids ids' :=
  (mintsNew_peal bellGraph p ids' resolves_peal hplan).1

theorem anchored_tower : Anchored towerHost.files shop.layout ["p"] where
  well := .of_keys (by decide) (by decide)
  root := by decide
  metadata := by decide

theorem assetsDir_shop : Settings.checkAssetsDir shop.layout.assetsDir = .ok () := by decide

theorem operationName_tower : '/' ∉ (towerHost.operationName towerHost.operations).toList := by
  simp [towerHost, shopHost]

theorem instantiate_peal :
    ∃ c, instantiate shop false peal towerHost = .ok angelusId (conclude shop c) := by
  obtain ⟨c, hc⟩ := execute_peal
  refine ⟨c, ?_⟩
  rw [instantiate_of_plan_ok plan_peal, hc]
  rfl

/-- The bell is copied and the gong is there already. -/
theorem media_integrity_peal : Anchored towerHost.files shop.layout ["p"] ∧
    Settings.checkAssetsDir shop.layout.assetsDir = .ok () ∧
    '/' ∉ (towerHost.operationName towerHost.operations).toList ∧
    MintsNew shop towerHost.files false peal towerHost.ids ∧ peal.media ≠ [] ∧
    ∃ h', instantiate shop false peal towerHost = .ok angelusId h' ∧
      (∃ g p ids' track sounds multi, Resolves shop towerHost.files peal g ∧
        plan shop towerHost.files false peal towerHost.ids = .ok p ids' ∧ p.eventId = angelusId ∧
        MediaInPlace ["p"] "op" shop peal p towerHost.files h'.files sounds multi ∧
        EventInPlace shop p h'.files (copyFor peal g angelusId towerHost.ids) track sounds multi) ∧
      h'.files.read ⟨"/p/Assets/bell.wav"⟩ = .ok "ding".toUTF8 := by
  obtain ⟨c, hrun⟩ := instantiate_peal
  have hall := media_integrity anchored_tower assetsDir_shop operationName_tower mintsNew_peal
    nofun hrun
  refine ⟨anchored_tower, assetsDir_shop, operationName_tower, mintsNew_peal, nofun, _, hrun,
    hall, ?_⟩
  obtain ⟨g, p, ids', track, sounds, multi, -, hplan, -, hmedia, -⟩ := hall
  obtain ⟨rfl, rfl⟩ := EStateM.Result.ok.inj (plan_peal.symm.trans hplan)
  obtain ⟨b, hb⟩ := hmedia.files bellCopy List.mem_cons_self
  have hlocate : towerHost.files.locate bellCopy.source = .ok ["bell.wav"] := by decide
  obtain rfl : "ding".toUTF8 = b := hb.before ["bell.wav"] _ (by decide) hlocate rfl
  exact hb.stored.1

end Instantiation

end AudioProject
