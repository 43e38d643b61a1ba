import AudioProject.Instantiation
import AudioProject.Proofs.Action
import AudioProject.Proofs.EventGraph.Ids
import AudioProject.Proofs.Instantiation.Places
import Mathlib.Data.List.Forall2
import Mathlib.Data.List.Nodup

/-
  What a plan is made of: a copy and an audio file for each media source, in order, and an event.
  A plan that was made also tells that the project is there, as its template was read.
-/

namespace AudioProject

open FileTree AudioProject.Path

/-! ## Audio files -/

theorem property?_audioFile (id : ObjectId) (m : PreparedMedia) (masterAssetFolder : ObjectId) :
    (audioFile id m masterAssetFolder).property? "assetPath" = some m.assetPath := by
  unfold audioFile
  cases m.info with
  | none => simp [Object.property?, Object.setProperty, Object.setEdge]
  | some info => simp [Object.property?, Object.setProperty, Object.setEdge]

theorem objectClass_audioFile (id : ObjectId) (m : PreparedMedia) (masterAssetFolder : ObjectId) :
    (audioFile id m masterAssetFolder).objectClass = .audioFile := by
  unfold audioFile
  cases m.info <;> rfl

/-- The object of a media file. -/
structure IsAudioFile (m : PreparedMedia) (o : Object) : Prop where
  objectClass : o.objectClass = .audioFile
  assetPath : o.property? "assetPath" = some m.assetPath

theorem forall₂_soundsFor (masterAssetFolder : ObjectId) (ids : IdSupply)
    (media : List PreparedMedia) :
    List.Forall₂ IsAudioFile media ((soundsFor masterAssetFolder ids media).1.map Prod.fst) := by
  induction media generalizing ids with
  | nil => exact .nil
  | cons m ms ih =>
    exact .cons ⟨objectClass_audioFile _ m _, property?_audioFile _ m _⟩ (ih _)

theorem EventGraph.forall₂_graft (g : EventGraph) (media : List PreparedMedia) (ids : IdSupply)
    (masterAssetFolder : ObjectId) :
    List.Forall₂ IsAudioFile media (g.graft media ids masterAssetFolder).2.1 := by
  cases media with
  | nil => exact .nil
  | cons first media => exact forall₂_soundsFor masterAssetFolder ids (first :: media)

namespace Instantiation

variable {s : Store} {t : FileTree} {r : Request} {ids ids' : IdSupply} {p : Plan}

/-! ## Copies -/

/-- The copy that is planned for a media source. -/
structure PlansCopy (s : Store) (t : FileTree) (m : MediaSource) (c : PlannedCopy) : Prop where
  source : c.source = m.source
  dest : ∃ name, m.source.fileName? = some name ∧ c.dest = (s.layout.assetDir m.target).join name
  reuse : c.reuse = t.has c.dest

theorem mediaName_eq_ok {source : Path} {name : String} :
    mediaName source = .ok name ↔ source.fileName? = some name := by
  unfold mediaName
  cases source.fileName? <;> simp

theorem plansCopy_of_planCopy {earlier : List Path} {m : MediaSource} {c : PlannedCopy}
    (h : planCopy s t earlier m = .ok c) : PlansCopy s t m c := by
  unfold planCopy at h
  obtain ⟨name, hname, h⟩ := bind_eq_ok.1 h
  have hfile := mediaName_eq_ok.1 hname
  dsimp only at h
  split at h
  · cases h
  split at h
  · next hreuse =>
    obtain ⟨same, -, h⟩ := bind_eq_ok.1 h
    split at h
    · cases h
    · cases h
      exact ⟨rfl, ⟨name, hfile, rfl⟩, rfl⟩
  · cases h
    exact ⟨rfl, ⟨name, hfile, rfl⟩, rfl⟩

theorem forall₂_planCopies {earlier : List Path} {media : List MediaSource}
    {copies : List PlannedCopy} (h : planCopies s t earlier media = .ok copies) :
    List.Forall₂ (PlansCopy s t) media copies := by
  induction media generalizing earlier copies with
  | nil =>
    cases h
    exact .nil
  | cons m ms ih =>
    rw [planCopies] at h
    obtain ⟨c, hc, h⟩ := bind_eq_ok.1 h
    obtain ⟨cs, hcs, h⟩ := bind_eq_ok.1 h
    cases h
    exact .cons (plansCopy_of_planCopy hc) (ih hcs)

theorem sameContents_eq_true {source dest : Path} : sameContents t source dest = .ok true ↔
    ∃ b, t.read source = .ok b ∧ t.read dest = .ok b := by
  unfold sameContents
  cases hsource : t.read source with
  | error e => simp [Except.mapError, bind, Except.bind]
  | ok a =>
    cases hdest : t.read dest with
    | error e => simp [Except.mapError, bind, Except.bind]
    | ok b =>
      show Except.ok (decide (a = b)) = Except.ok true ↔ _
      simp [eq_comm]

/-- A copy goes to a place of its own, and one that is there already holds the same bytes. -/
theorem reads_of_planCopy {earlier : List Path} {m : MediaSource} {c : PlannedCopy}
    (h : planCopy s t earlier m = .ok c) : c.dest ∉ earlier ∧
      (c.reuse = true → ∃ b, t.read c.source = .ok b ∧ t.read c.dest = .ok b) := by
  unfold planCopy at h
  obtain ⟨name, hname, h⟩ := bind_eq_ok.1 h
  dsimp only at h
  split at h
  · cases h
  next hearlier =>
  split at h
  · obtain ⟨same, hsame, h⟩ := bind_eq_ok.1 h
    cases same with
    | false => cases h
    | true =>
      cases h
      exact ⟨hearlier, fun _ => sameContents_eq_true.1 hsame⟩
  · next hreuse =>
    cases h
    exact ⟨hearlier, fun h => absurd h hreuse⟩

theorem reads_of_planCopies {earlier : List Path} {media : List MediaSource}
    {copies : List PlannedCopy} (h : planCopies s t earlier media = .ok copies) :
    (∀ p ∈ earlier, p ∉ copies.map PlannedCopy.dest) ∧ (copies.map PlannedCopy.dest).Nodup ∧
      ∀ c ∈ copies, c.reuse = true → ∃ b, t.read c.source = .ok b ∧ t.read c.dest = .ok b := by
  induction media generalizing earlier copies with
  | nil =>
    cases h
    simp
  | cons m ms ih =>
    rw [planCopies] at h
    obtain ⟨c, hc, h⟩ := bind_eq_ok.1 h
    obtain ⟨cs, hcs, h⟩ := bind_eq_ok.1 h
    cases h
    obtain ⟨hnew, hreads⟩ := reads_of_planCopy hc
    obtain ⟨hearlier, hnodup, hrest⟩ := ih hcs
    rw [List.forall_mem_cons] at hearlier
    refine ⟨fun p hp hmem => ?_, List.nodup_cons.2 ⟨hearlier.1, hnodup⟩,
      List.forall_mem_cons.2 ⟨hreads, hrest⟩⟩
    rcases List.mem_cons.1 hmem with rfl | hmem
    · exact hnew hp
    · exact hearlier.2 p hp hmem

theorem exists_plansCopy {media : List MediaSource} {copies : List PlannedCopy}
    (h : List.Forall₂ (PlansCopy s t) media copies) {c : PlannedCopy} (hc : c ∈ copies) :
    ∃ m, PlansCopy s t m c := by
  induction h with
  | nil => cases hc
  | @cons m c' ms cs hm _ ih =>
    rcases List.mem_cons.1 hc with rfl | hc
    · exact ⟨m, hm⟩
    · exact ih hc

/-! ## The template -/

theorem loadEvent_eq_ok {id : ObjectId} {g : EventGraph} :
    s.loadEvent t id = .ok g ↔ ∃ path d, s.eventPath? id = some path ∧ t.has path = true ∧
      Store.readDocument t path = .ok d ∧ EventGraph.extract? id d.model d.objects = some g := by
  unfold Store.loadEvent
  constructor
  · intro h
    split at h
    · cases h
    next path hpath =>
    split at h
    · next hhas =>
      obtain ⟨d, hd, h⟩ := bind_eq_ok.1 h
      split at h
      · next g' hextract =>
        cases h
        exact ⟨path, d, hpath, hhas, hd, hextract⟩
      · cases h
    · cases h
  · intro ⟨path, d, hpath, hhas, hd, hextract⟩
    rw [hpath]
    dsimp only
    rw [if_pos hhas, hd, ok_bind, hextract]

/-- An event that can be loaded is a well-formed graph, and its project is there. -/
theorem hasEvent_of_loadEvent {id : ObjectId} {g : EventGraph} (h : s.loadEvent t id = .ok g) :
    (∃ base, t.walk s.layout.root = .ok base) ∧ g.HasEvent ∧ g.IsKeyed := by
  obtain ⟨path, d, hpath, hhas, -, hextract⟩ := loadEvent_eq_ok.1 h
  refine ⟨?_, EventGraph.hasEvent_extract hextract⟩
  obtain ⟨dir, -, hdir, hnames, -⟩ := objectPath?_eq_some hpath
  obtain ⟨l, hl⟩ := locate_of_has hhas
  rw [hnames] at hl
  obtain ⟨base, hbase, -, -⟩ :=
    (walk_descend (plain_documentNames hdir id)).1 (locate_eq_ok.1 hl).2
  exact ⟨base, hbase⟩

theorem template_eq_ok {id : ObjectId} {g : EventGraph} :
    template s t id = .ok g ↔ s.loadEvent t id = .ok g := by
  unfold template
  split
  · next g' hload => simp [hload]
  · next hload => simp [hload]
  · next hload => simp [hload]

/-- All that a request names is there, and `g` is its template. -/
structure Resolves (s : Store) (t : FileTree) (r : Request) (g : EventGraph) : Prop where
  template : s.loadEvent t r.template = .ok g
  folder : s.contains .eventFolder r.folder = true
  bank : isBank s r.bank = true
  bus : s.contains .bus r.bus = true
  media : r.media.forM (checkMedia s) = .ok ()
  unused : ∀ id, r.eventId? = some id → isTaken s t id = false

theorem resolve_eq_ok {g : EventGraph} : resolve s t r = .ok g ↔ Resolves s t r g := by
  unfold resolve
  constructor
  · intro h
    obtain ⟨g', hg', h⟩ := bind_eq_ok.1 h
    have htemplate := template_eq_ok.1 hg'
    dsimp only at h
    split at h
    · cases h
    next hfolder =>
    split at h
    · cases h
    next hbank =>
    split at h
    · cases h
    next hbus =>
    obtain ⟨_, hmedia, h⟩ := bind_eq_ok.1 h
    simp only [Bool.not_eq_true', Bool.not_eq_false] at hfolder hbank hbus
    split at h
    · next id hid =>
      split at h
      · cases h
      next hfree =>
      cases h
      refine ⟨htemplate, hfolder, hbank, hbus, hmedia, ?_⟩
      intro id' hid'
      cases hid.symm.trans hid'
      simpa using hfree
    · next hid =>
      cases h
      refine ⟨htemplate, hfolder, hbank, hbus, hmedia, ?_⟩
      intro id' hid'
      cases hid.symm.trans hid'
  · intro h
    rw [template_eq_ok.2 h.template, ok_bind, h.folder, h.bank, h.bus]
    show (r.media.forM (checkMedia s) >>= _) = _
    rw [h.media, ok_bind]
    cases hid : r.eventId? with
    | none => rfl
    | some id =>
      dsimp only
      rw [h.unused id hid]
      rfl

/-! ## The plan -/

/-- The ids that are minted for a request, from `ids` until there is `ids'`, are new, each of them
once. -/
structure MintsFresh (r : Request) (ids ids' : IdSupply) : Prop where
  once : ∀ m n, ids.issued ≤ m → m < n → n < ids'.issued → ids.nth m ≠ ids.nth n
  unlike : ∀ id, r.eventId? = some id → IsFresh id ids ids'

theorem precedes_eventId (r : Request) (ids : IdSupply) : ids.Precedes (eventId r ids).2 := by
  unfold eventId
  cases r.eventId? with
  | none => exact .mint ids
  | some id => exact .refl ids

theorem isFresh_eventId (h : MintsFresh r ids ids') (hids : ids.Precedes ids') :
    IsFresh (eventId r ids).1 (eventId r ids).2 ids' := by
  unfold eventId
  cases hid : r.eventId? with
  | none =>
    intro n hn hlt hsame
    have hsucc : ids.issued + 1 ≤ n := hn
    rw [hids.nth] at hsame
    exact h.once ids.issued n (Nat.le_refl _) hsucc hlt hsame.symm
  | some id => exact h.unlike id hid

/-- What the plan of a request is made of. -/
structure Plans (s : Store) (t : FileTree) (r : Request) (p : Plan) : Prop where
  found : ∃ base, t.walk s.layout.root = .ok base
  copies : List.Forall₂ (PlansCopy s t) r.media p.copies
  audioFiles : ∃ probing, List.Forall₂ IsAudioFile (r.media.map (prepare t probing)) p.audioFiles

/-- Every copy goes below the assets directory. -/
theorem exists_names_of_plans (h : Plans s t r p)
    (hassets : Settings.checkAssetsDir s.layout.assetsDir = .ok ()) {c : PlannedCopy}
    (hc : c ∈ p.copies) : ∃ names, c.dest = s.layout.root.descend names ∧ IsAssets names := by
  obtain ⟨m, hm⟩ := exists_plansCopy h.copies hc
  obtain ⟨name, hname, hdest⟩ := hm.dest
  rw [hdest]
  exact exists_mediaNames hassets m.target (isName_of_fileName? hname)

theorem plan_eq_ok {probing : Bool} :
    plan s t probing r ids = .ok p ids' ↔ ∃ g copies, Resolves s t r g ∧
      planCopies s t [] r.media = .ok copies ∧
      assemble s r (g.copy (eventId r ids).1 (eventId r ids).2).1
        (g.copy (eventId r ids).1 (eventId r ids).2).2.1.size copies
        (r.media.map (prepare t probing)) (g.copy (eventId r ids).1 (eventId r ids).2).2.2 =
        (p, ids') := by
  unfold plan
  constructor
  · intro h
    split at h
    · cases h
    next g hresolve =>
    dsimp only at h
    split at h
    · cases h
    next copies hcopies =>
    cases h
    exact ⟨g, copies, resolve_eq_ok.1 hresolve, hcopies, rfl⟩
  · intro ⟨g, copies, hresolves, hcopies, hassemble⟩
    rw [resolve_eq_ok.2 hresolves]
    dsimp only
    rw [hcopies]
    dsimp only
    rw [hassemble]

/-- The event of a plan is a copy of the template with the media in it, the superfluous nodes
removed where there are media. -/
theorem graft_of_plan {probing : Bool} (h : plan s t probing r ids = .ok p ids') :
    ∃ g event, Resolves s t r g ∧
      ((g.copy (eventId r ids).1 (eventId r ids).2).1.override (overrides r)).1.graft
        (r.media.map (prepare t probing)) (g.copy (eventId r ids).1 (eventId r ids).2).2.2
        s.masters.assetFolder = (event, p.audioFiles, ids') ∧
      (p.event = event ∨ p.event = event.prune.1) := by
  obtain ⟨g, copies, hresolves, -, hassemble⟩ := plan_eq_ok.1 h
  unfold assemble at hassemble
  refine ⟨g, ?_⟩
  generalize ((g.copy (eventId r ids).1 (eventId r ids).2).1.override (overrides r)).1.graft
    (r.media.map (prepare t probing)) (g.copy (eventId r ids).1 (eventId r ids).2).2.2
    s.masters.assetFolder = made at hassemble ⊢
  obtain ⟨event, audio, ids₁⟩ := made
  dsimp only at hassemble
  split at hassemble
  · cases hassemble
    exact ⟨_, hresolves, rfl, Or.inl rfl⟩
  · cases hassemble
    exact ⟨_, hresolves, rfl, Or.inr rfl⟩

/-- The event of a plan has the id that was asked for, or the first one that was minted. -/
theorem event_of_plan {probing : Bool} (h : plan s t probing r ids = .ok p ids')
    (hfresh : MintsFresh r ids ids') :
    p.event.HasEvent ∧ p.event.root = (eventId r ids).1 := by
  obtain ⟨g, event, hresolves, hgraft, hevent⟩ := graft_of_plan h
  obtain ⟨-, hroot, hkeyed⟩ := hasEvent_of_loadEvent hresolves.template
  obtain ⟨hcopy, hrest⟩ := EventGraph.precedes_graft_copy hgraft
  have hnew := isFresh_eventId hfresh ((precedes_eventId r ids).trans (hcopy.trans hrest))
  obtain ⟨hgrafted, hid⟩ := hroot.graft_copy hkeyed hgraft hnew
  rcases hevent with rfl | hevent
  · exact ⟨hgrafted, hid⟩
  · rw [hevent]
    exact ⟨hgrafted.prune, hid⟩

theorem plans_of_plan {probing : Bool} (h : plan s t probing r ids = .ok p ids') :
    Plans s t r p ∧ (MintsFresh r ids ids' → p.event.HasEvent) := by
  obtain ⟨_, copies, -, hcopies, hassemble⟩ := plan_eq_ok.1 h
  have hp : p.copies = copies := (congrArg (fun q => q.1.copies) hassemble).symm
  obtain ⟨g, event, hresolves, hgraft, -⟩ := graft_of_plan h
  obtain ⟨hfound, -⟩ := hasEvent_of_loadEvent hresolves.template
  have haudio := EventGraph.forall₂_graft
    ((g.copy (eventId r ids).1 (eventId r ids).2).1.override (overrides r)).1
    (r.media.map (prepare t probing)) (g.copy (eventId r ids).1 (eventId r ids).2).2.2
    s.masters.assetFolder
  rw [hgraft] at haudio
  exact ⟨⟨hfound, hp ▸ forall₂_planCopies hcopies, probing, haudio⟩,
    fun hfresh => (event_of_plan h hfresh).1⟩

/-! ## The ids of a plan -/

theorem MintsFresh.nodup_minted {ids₁ : IdSupply} (h : MintsFresh r ids ids')
    (hids : ids.Precedes ids₁) : (ids₁.minted ids').Nodup := by
  have honce : ∀ {m n}, ids₁.issued ≤ m → m < n → n < ids'.issued → ids₁.nth m ≠ ids₁.nth n := by
    intro m n hm hlt hn
    rw [hids.nth]
    exact h.once m n (Nat.le_trans hids.issued hm) hlt hn
  refine List.Nodup.map_on (fun m hm n hn hsame => ?_) List.nodup_range'
  rw [List.mem_range'_1] at hm hn
  rcases Nat.lt_trichotomy m n with hlt | heq | hlt
  · exact absurd hsame (honce hm.1 hlt (by omega))
  · exact heq
  · exact absurd hsame.symm (honce hn.1 hlt (by omega))

theorem mem_eventId {id : ObjectId} (hids : (eventId r ids).2.Precedes ids')
    (h : id ∈ (eventId r ids).1 :: (eventId r ids).2.minted ids') :
    r.eventId? = some id ∨ id ∈ ids.minted ids' := by
  unfold eventId at hids h
  cases hid : r.eventId? with
  | none =>
    rw [hid] at hids h
    rw [IdSupply.minted_append (.mint ids) hids, IdSupply.minted_mint]
    exact Or.inr h
  | some id' =>
    rw [hid] at h
    rcases List.mem_cons.1 h with rfl | hminted
    · exact Or.inl rfl
    · exact Or.inr hminted

/-- A plan has the id that was asked for and minted ones, each for one object. -/
theorem plan_ids {probing : Bool} (h : plan s t probing r ids = .ok p ids')
    (hfresh : MintsFresh r ids ids') :
    ((p.audioFiles ++ p.event.objects).map Object.id).Nodup ∧
      ∀ o ∈ p.audioFiles ++ p.event.objects, r.eventId? = some o.id ∨ o.id ∈ ids.minted ids' := by
  obtain ⟨g, event, hresolves, hgraft, hevent⟩ := graft_of_plan h
  obtain ⟨-, -, hkeyed⟩ := hasEvent_of_loadEvent hresolves.template
  have hfirst := precedes_eventId r ids
  have hrest := (EventGraph.precedes_graft_copy hgraft).1.trans
    (EventGraph.precedes_graft_copy hgraft).2
  have hnew := isFresh_eventId hfresh (hfirst.trans hrest)
  obtain ⟨S, hperm, hids⟩ := EventGraph.ids_of_graft_copy hkeyed hgraft hnew
  have hids : p.event.IdsIn S := by
    rcases hevent with rfl | hevent
    · exact hids
    · rw [hevent]
      exact hids.prune
  have hall := List.nodup_cons.2
    ⟨IdSupply.not_mem_minted hnew hrest, hfresh.nodup_minted hfirst⟩
  obtain ⟨hnodup, hmem⟩ := hids.nodup_beside (hperm.nodup_iff.2 hall)
  exact ⟨hnodup, fun o ho => mem_eventId hrest (hperm.mem_iff.1 (hmem o ho))⟩

/-- The id that was asked for is among them. -/
theorem exists_of_eventId? {probing : Bool} (h : plan s t probing r ids = .ok p ids')
    (hfresh : MintsFresh r ids ids') {id : ObjectId} (hid : r.eventId? = some id) :
    ∃ o ∈ p.event.objects, o.id = id := by
  obtain ⟨hevent, hroot⟩ := event_of_plan h hfresh
  obtain ⟨o, rest, hobjects, ho, -⟩ := EventGraph.objects_eq_cons hevent
  refine ⟨o, hobjects ▸ List.mem_cons_self, ?_⟩
  rw [ho, hroot]
  unfold eventId
  rw [hid]

end Instantiation

end AudioProject
