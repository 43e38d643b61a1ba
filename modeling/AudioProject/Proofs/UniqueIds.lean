import AudioProject.Proofs.Homes
import AudioProject.Proofs.Instantiation.Documents
import AudioProject.Proofs.Staging.Durability

/-
  Ids are unique, from the opening of a project on, as far as the caller sees to it. A commit only
  moves objects from a record to a document (`Link.unique`), so it cannot break this. Staging and
  instantiating bring objects, and look for the ids of some of them at some of the places where an
  id can be. `ClearRecord` and `ClearRequest` are what is left to the caller: of all that succeeds
  they are just what keeps ids unique, at every moment of a session (`ids_stay_unique`). An id that
  is in use but is in no index can be staged, as that of an event (`event_id_staged_again`).
-/

namespace AudioProject

open FileTree Store Staging

namespace Session

variable {base j : Location} {x y : Session} {s : Store} {k : Kind} {r : PendingRecord}
  {docs : List (List Object)} {os : List Object}

/-! ## Committing -/

/-- A commit moves the objects of a record to its document, and no others. -/
theorem Link.unique (h : Link base x y) (hx : UniqueIds base x) : UniqueIds base y := by
  cases h with
  | idle h =>
    refine hx.of_map Function.injective_id fun a => Or.inr ?_
    cases a with
    | document j hj => exact idsOf_document_congr (h.documents.content j hj.isSettled)
    | pending k id => exact idsOf_pending_congr (by rw [h.staging])
  | @placed k r h _ =>
    obtain ⟨dir, -, -, hcomes⟩ := h.document
    have hplace : IsDocumentPlace base (base ++ namesOf dir r.id.fileName) :=
      isDocumentPlace_namesOf base dir (isXml_fileName r.id)
    -- the ids of the record are those of its document from now on, and nothing was there before
    let document : Home base := .document _ hplace
    let pending : Home base := .pending k r.id
    refine hx.of_map (Equiv.swap document pending).injective fun a => ?_
    by_cases hdocument : a = document
    · refine Or.inr ?_
      rw [hdocument, Equiv.swap_apply_left, idsOf_pending h.pending]
      exact idsOf_document hcomes.content
    by_cases hpending : a = pending
    · refine Or.inl ?_
      rw [hpending]
      refine idsOf_pending_of_none ?_
      rw [h.staging, get?_take, if_pos ⟨rfl, rfl⟩]
    refine Or.inr ?_
    rw [Equiv.swap_apply_of_ne_of_ne hdocument hpending]
    cases a with
    | document j hj =>
      refine idsOf_document_congr (hcomes.others.content j ⟨hj.isSettled, ?_⟩)
      rintro rfl
      exact hdocument rfl
    | pending i id =>
      refine idsOf_pending_congr ?_
      rw [h.staging, get?_take, if_neg]
      rintro ⟨rfl, rfl⟩
      exact hpending rfl

/-! ## Staging -/

/-- What staging leaves to the caller. It looks for the id of the record, but not everywhere, and
does not look for those of the siblings. -/
structure ClearRecord (base : Location) (x : Session) (r : PendingRecord) : Prop where
  distinct : (r.objects.map Object.id).Nodup
  siblings : ∀ o ∈ r.siblings, ¬ Uses base x o.id
  seen : Uses base x r.id → x.staging.isPending r.id = true ∨ x.store.containsAny r.id = true

/-- A clear record under an id that is in use is refused. -/
theorem ClearRecord.refused (h : ClearRecord base x r) (huses : Uses base x r.id) (k : Kind) :
    ∃ e, x.staging.stage x.store k r = .error e := by
  cases hstage : x.staging.stage x.store k r with
  | error e => exact ⟨e, rfl⟩
  | ok g =>
    obtain ⟨-, hpending, hcontains, -⟩ := stage_eq_ok hstage
    rcases h.seen huses with hseen | hseen
    · rw [hpending] at hseen
      cases hseen
    · rw [hcontains] at hseen
      cases hseen

/-- The objects of a record come to the place of the record. -/
theorem gains_stage {g : Staging} (hsound : x.staging.Sound)
    (hstage : x.staging.stage x.store k r = .ok g) :
    Gains [r.objects] (fun _ => some (.pending k r.id : Home base)) (fun os => os.map Object.id) x
      { x with staging := g } := by
  obtain ⟨-, hfree, -, path, rfl, -⟩ := stage_eq_ok hstage
  constructor
  · intro os hos
    rw [List.mem_singleton.1 hos]
    refine ⟨_, rfl, idsOf_pending_of_none (hsound.isPending_eq_false.1 hfree k), idsOf_pending ?_⟩
    show (x.staging.add k r path).get? k r.id = some r
    rw [get?_add, if_pos ⟨rfl, rfl⟩]
  · exact List.pairwise_singleton _ _
  · intro a hne
    cases a with
    | document j hj => rfl
    | pending i id =>
      refine idsOf_pending_congr ?_
      show (x.staging.add k r path).get? i id = _
      rw [get?_add, if_neg]
      rintro ⟨rfl, rfl⟩
      exact hne _ List.mem_cons_self rfl

/-- Of the records that are staged, it is the clear ones that keep ids unique. -/
theorem unique_stage_iff (hx : UniqueIds base x) (hsound : x.staging.Sound) {g : Staging}
    (hstage : x.staging.stage x.store k r = .ok g) :
    UniqueIds base { x with staging := g } ↔ ClearRecord base x r := by
  rw [(gains_stage hsound hstage).unique_iff hx, List.flatMap_singleton]
  constructor
  · rintro ⟨hdistinct, hunused⟩
    have hobject : ∀ o ∈ r.objects, ¬ Uses base x o.id := fun o ho =>
      hunused o.id (List.mem_map_of_mem ho)
    exact ⟨hdistinct, fun o ho => hobject o (List.mem_cons_of_mem _ ho), fun huses =>
      absurd huses (hobject r.object List.mem_cons_self)⟩
  · intro hclear
    refine ⟨hclear.distinct, fun id hid huses => ?_⟩
    obtain ⟨o, ho, rfl⟩ := List.mem_map.1 hid
    rcases List.mem_cons.1 ho with rfl | ho
    · obtain ⟨e, he⟩ := hclear.refused huses k
      rw [hstage] at he
      cases he
    · exact hclear.siblings o ho huses

theorem UniqueIds.discardAll (hx : UniqueIds base x) :
    UniqueIds base { x with staging := x.staging.discardAll.2 } := by
  refine hx.of_map Function.injective_id fun a => ?_
  cases a with
  | document j hj => exact Or.inr rfl
  | pending k id => exact Or.inl (idsOf_pending_of_none (get?_empty k id))

/-! ## Instantiating -/

open Instantiation

def documentHome? (base : Location) (os : List Object) : Option (Home base) :=
  (documentPlace? base os).attach.map fun j =>
    .document j.1 (isDocumentPlace_of_documentPlace? j.2)

theorem documentHome?_eq_some {a : Home base} : documentHome? base os = some a ↔
    ∃ j hj, documentPlace? base os = some j ∧ a = .document j hj := by
  unfold documentHome?
  rw [Option.map_eq_some_iff]
  constructor
  · rintro ⟨⟨j, hj⟩, -, rfl⟩
    exact ⟨j, _, hj, rfl⟩
  · rintro ⟨j, hj, hplace, rfl⟩
    exact ⟨⟨j, hplace⟩, Option.attach_eq_some_iff.2 hplace, rfl⟩

theorem gains_of_addsDocuments {h : Host}
    (hadds : AddsDocuments s base docs x.host.files h.files) :
    Gains docs (documentHome? base) (fun os => os.map Object.id) x { x with host := h } := by
  have hhome : ∀ os ∈ docs, ∃ j hj, documentPlace? base os = some j ∧
      documentHome? base os = some (.document j hj) := by
    intro os hos
    obtain ⟨j, hj, -⟩ := hadds.new os hos
    exact ⟨j, isDocumentPlace_of_documentPlace? hj, hj, documentHome?_eq_some.2 ⟨j, _, hj, rfl⟩⟩
  constructor
  · intro os hos
    obtain ⟨j, hj, hold, hnew⟩ := hadds.new os hos
    exact ⟨.document j (isDocumentPlace_of_documentPlace? hj),
      documentHome?_eq_some.2 ⟨j, _, hj, rfl⟩, idsOf_document_of_none hold, idsOf_document hnew⟩
  · refine hadds.apart.imp_of_mem fun {os os'} hos hos' hne hsame => ?_
    obtain ⟨j, hj, hplace, hjhome⟩ := hhome os hos
    obtain ⟨i, hi, hplace', hihome⟩ := hhome os' hos'
    rw [hjhome, hihome] at hsame
    cases hsame
    exact hne (hplace.trans hplace'.symm)
  · intro a hothers
    cases a with
    | pending k id => rfl
    | document j hj =>
      refine idsOf_document_congr (hadds.others j hj fun os hos hplace => ?_)
      exact hothers os hos (documentHome?_eq_some.2 ⟨j, hj, hplace, rfl⟩)

/-- The ids that are minted for a request are new. -/
def MintsUnused (base : Location) (x : Session) (probing : Bool) (q : Request) : Prop :=
  ∀ p ids', plan x.store x.host.files probing q x.host.ids = .ok p ids' →
    MintsFresh q x.host.ids ids' ∧ ∀ id ∈ x.host.ids.minted ids', ¬ Uses base x id

/-- What instantiating leaves to the caller. It looks for the id that is asked for in the indices
and among the events, but not everywhere. -/
def ClearRequest (base : Location) (x : Session) (q : Request) : Prop :=
  ∀ id, q.eventId? = some id → Uses base x id → isTaken x.store x.host.files id = true

variable {probing : Bool} {q : Request} {id : ObjectId}

/-- A clear request for an id that is in use is refused before any file is touched. -/
theorem ClearRequest.refused (h : ClearRequest base x q) (hid : q.eventId? = some id)
    (huses : Uses base x id) (probing : Bool) :
    ∃ e h', instantiate x.store probing q x.host = .error e h' ∧ h'.files = x.host.files := by
  cases hplan : plan x.store x.host.files probing q x.host.ids with
  | error e ids => exact ⟨e, _, instantiate_of_plan_error hplan, rfl⟩
  | ok p ids =>
    obtain ⟨g, event, hresolves, -⟩ := graft_of_plan hplan
    have hfree := hresolves.unused id hid
    rw [h id hid huses] at hfree
    cases hfree

/-- Of the requests that succeed, it is the clear ones that keep ids unique. -/
theorem unique_instantiate_iff (hx : UniqueIds base x) (hanchored : AnchoredAt base x)
    (hassets : Settings.checkAssetsDir x.store.layout.assetsDir = .ok ())
    (hminted : MintsUnused base x probing q) {h : Host}
    (hrun : instantiate x.store probing q x.host = .ok id h) :
    UniqueIds base { x with host := h } ↔ ClearRequest base x q := by
  obtain ⟨-, p, ids', hplan, hadds⟩ := (instantiate_documents hanchored hassets).1 id h hrun
  obtain ⟨hfresh, hnew⟩ := hminted p ids' hplan
  obtain ⟨hnodup, hmem⟩ := plan_ids hplan hfresh
  rw [(gains_of_addsDocuments hadds).unique_iff hx, p.ids_documents]
  constructor
  · rintro ⟨-, hunused⟩ i hi huses
    obtain ⟨o, ho, rfl⟩ := exists_of_eventId? hplan hfresh hi
    exact absurd huses (hunused o.id (List.mem_map_of_mem (List.mem_append_right _ ho)))
  · intro hclear
    refine ⟨hnodup, fun i hi huses => ?_⟩
    obtain ⟨o, ho, rfl⟩ := List.mem_map.1 hi
    rcases hmem o ho with hid | hminted
    · obtain ⟨e, h', hrefused, -⟩ := hclear.refused hid huses probing
      rw [hrun] at hrefused
      cases hrefused
    · exact hnew o.id hminted huses

/-- Whatever a clear request comes to, ids stay unique. -/
theorem UniqueIds.instantiate (hx : UniqueIds base x) (hanchored : AnchoredAt base x)
    (hassets : Settings.checkAssetsDir x.store.layout.assetsDir = .ok ())
    (hminted : MintsUnused base x probing q) (hclear : ClearRequest base x q) :
    AnchoredAt base { x with host := (instantiate x.store probing q).after x.host } ∧
      UniqueIds base { x with host := (instantiate x.store probing q).after x.host } := by
  cases hrun : Instantiation.instantiate x.store probing q x.host with
  | error e h =>
    obtain ⟨hanchored', hadds⟩ := (instantiate_documents hanchored hassets).2 e h hrun
    rw [Action.after_of_error hrun]
    exact ⟨hanchored', (gains_of_addsDocuments hadds).unique hx (by simp) (by simp)⟩
  | ok id h =>
    obtain ⟨hanchored', -⟩ := (instantiate_documents hanchored hassets).1 id h hrun
    rw [Action.after_of_ok hrun]
    exact ⟨hanchored', (unique_instantiate_iff hx hanchored hassets hminted hrun).2 hclear⟩

/-! ## Sessions -/

/-- What can be done in a session, with commits and instantiations whatever they come to. -/
inductive History (base : Location) (x : Session) : Session → Prop where
  | refl : History base x x
  | stage {y : Session} {k : Kind} {r : PendingRecord} {g : Staging} (h : History base x y)
    (clear : ClearRecord base y r) (hstage : y.staging.stage y.store k r = .ok g) :
    History base x { y with staging := g }
  | discard {y : Session} (h : History base x y) :
    History base x { y with staging := y.staging.discardAll.2 }
  | commit {y : Session} (h : History base x y) : History base x (commitAll.after y)
  | instantiate {y : Session} {probing : Bool} {q : Request} (h : History base x y)
    (minted : MintsUnused base y probing q) (clear : ClearRequest base y q) :
    History base x { y with host := (instantiate y.store probing q).after y.host }
  | outside {y : Session} (h : History base x y) (host : Host)
    (hfiles : host.files = y.host.files) : History base x { y with host := host }

/-- A session of a project at `base`, the ids of which are unique. -/
structure Consistent (base : Location) (l : Layout) (x : Session) : Prop where
  layout : x.store.layout = l
  anchored : AnchoredAt base x
  sound : x.staging.Sound
  unique : UniqueIds base x

variable {l : Layout}

theorem Consistent.link (h : Consistent base l x) (hlink : Link base x y)
    (hy : AnchoredAt base y) : Consistent base l y :=
  ⟨hlink.layout.trans h.layout, hy, hlink.sound h.sound, hlink.unique h.unique⟩

theorem History.consistent (h : History base x y) (hx : Consistent base l x)
    (hassets : Settings.checkAssetsDir l.assetsDir = .ok ()) : Consistent base l y := by
  induction h with
  | refl => exact hx
  | stage _ clear hstage ih =>
    exact ⟨ih.layout, ih.anchored, ih.sound.stage hstage,
      (unique_stage_iff ih.unique ih.sound hstage).2 clear⟩
  | discard _ ih =>
    exact ⟨ih.layout, ih.anchored, .empty, ih.unique.discardAll⟩
  | commit _ ih =>
    exact (trail_commitAll ih.anchored ih.sound.keyed).keeps (fun hlink hy h => h.link hlink hy) ih
  | @instantiate z probing q _ minted clear ih =>
    have hdir : Settings.checkAssetsDir z.store.layout.assetsDir = .ok () := by
      rw [ih.layout]
      exact hassets
    obtain ⟨hanchored, hunique⟩ := ih.unique.instantiate ih.anchored hdir minted clear
    exact ⟨ih.layout, hanchored, ih.sound, hunique⟩
  | outside _ host hfiles ih =>
    refine ⟨ih.layout, ?_, ih.sound, ?_⟩
    · unfold AnchoredAt
      rw [hfiles]
      exact ih.anchored
    · refine ih.unique.of_map Function.injective_id fun a => Or.inr ?_
      cases a with
      | document j hj => exact idsOf_document_congr (by rw [hfiles])
      | pending k id => rfl

/-- The ids of a session are unique, and in the middle of a commit they are. Of what can be staged
and instantiated, it is the clear records and requests that keep them so, and these are refused if
their id is in use. -/
structure KeepsUnique (base : Location) (x : Session) : Prop where
  unique : UniqueIds base x
  moments : ∀ y ∈ trail x, UniqueIds base y
  record : ∀ k r g, x.staging.stage x.store k r = .ok g →
    (UniqueIds base { x with staging := g } ↔ ClearRecord base x r)
  request : ∀ probing q id h, MintsUnused base x probing q →
    instantiate x.store probing q x.host = .ok id h →
    (UniqueIds base { x with host := h } ↔ ClearRequest base x q)
  refusesRecord : ∀ k r, ClearRecord base x r → Uses base x r.id →
    ∃ e, x.staging.stage x.store k r = .error e
  refusesRequest : ∀ probing q id, ClearRequest base x q → q.eventId? = some id →
    Uses base x id → ∃ e h, instantiate x.store probing q x.host = .error e h ∧
      h.files = x.host.files

theorem Consistent.keepsUnique (h : Consistent base l x)
    (hassets : Settings.checkAssetsDir l.assetsDir = .ok ()) : KeepsUnique base x where
  unique := h.unique
  moments := by
    have hmoments := (trail_commitAll h.anchored h.sound.keyed).forall_mem
      (fun hlink hy h => h.link hlink hy) h
    exact fun y hy => (hmoments y (List.mem_cons_of_mem _ hy)).unique
  record := fun _ _ _ hstage => unique_stage_iff h.unique h.sound hstage
  request := fun _ _ _ _ hminted hrun =>
    unique_instantiate_iff h.unique h.anchored (h.layout.symm ▸ hassets) hminted hrun
  refusesRecord := fun k _ hclear huses => hclear.refused huses k
  refusesRequest := fun probing _ _ hclear hid huses => hclear.refused hid huses probing

end Session

open Session

/-- In a project whose objects have distinct ids when it is opened they have them ever after, if
what is staged and what is asked for is clear. -/
theorem ids_stay_unique {host : Host} {l : Layout} {keep : Bool} {s : Store} {base : Location}
    (hopen : load host.files l keep = .ok s) (hwell : host.files.WellFormed)
    (hassets : Settings.checkAssetsDir l.assetsDir = .ok ())
    (hbase : host.files.walk l.root = .ok base) (hunique : UniqueIds base ⟨host, s, {}⟩)
    {x : Session} (hrun : History base ⟨host, s, {}⟩ x) : KeepsUnique base x := by
  obtain ⟨rfl, -, c, hholds, -⟩ := load_eq_ok_iff.1 hopen
  obtain ⟨base', hanchored⟩ := exists_anchored hwell hholds
  obtain rfl : base = base' := Except.ok.inj (hbase.symm.trans hanchored.root)
  have hfirst : Consistent base s.layout ⟨host, s, {}⟩ :=
    ⟨rfl, hanchored, .empty, hunique⟩
  exact (hrun.consistent hfirst hassets).keepsUnique hassets

/-! ### The id of an event -/

theorem isDocumentPlace_toll : IsDocumentPlace ["p"] ["p", "Metadata", "Event", "toll.xml"] :=
  isDocumentPlace_namesOf ["p"] "Event" (isXml_fileName toll.id)

/-- The documents of the project. -/
def loftDocuments : List (Home ["p"] × List Object) :=
  [(.document ["p", "Metadata", "Workspace.xml"] ⟨by decide, _, rfl, isXml_workspace⟩,
      loftContents.workspace.objects),
    (.document ["p", "Metadata", "Master.xml"] ⟨by decide, _, rfl, isXml_master⟩,
      loftContents.master.objects),
    (.document ["p", "Metadata", "EventFolder", "lost.xml"]
      (isDocumentPlace_namesOf ["p"] "EventFolder" (isXml_fileName lost.id)), [lost]),
    (.document ["p", "Metadata", "Event", "toll.xml"] isDocumentPlace_toll, [toll])]

/-- The same project before there was any document. -/
def bare : Session := ⟨{ loftHost with files := {} }, loft, {}⟩

theorem idsOf_bare (a : Home ["p"]) : bare.idsOf a = [] := by
  cases a with
  | document j hj =>
    refine idsOf_document_of_none ?_
    cases j <;> rfl
  | pending k id => exact idsOf_pending_of_none (get?_empty k id)

theorem unique_bare : UniqueIds ["p"] bare := by
  constructor
  · intro a
    rw [idsOf_bare]
    exact List.nodup_nil
  · intro a b _
    rw [idsOf_bare]
    exact List.disjoint_nil_left _

/-- What is at a place for documents is one of them. -/
theorem exists_loftDocument {j : Location} (hj : IsDocumentPlace ["p"] j) {b : ByteArray}
    (h : loftFiles.contentAt? j = some b) : ∃ d ∈ loftDocuments, d.1 = .document j hj := by
  have hkeys : ∀ i ∈ loftFiles.nodes.keys, ∀ hi : IsDocumentPlace ["p"] i,
      loftFiles.contentAt? i = none ∨ ∃ d ∈ loftDocuments, d.1 = .document i hi := by
    rw [show loftFiles.nodes.keys = [["p"], ["p", "Metadata"],
      ["p", "Metadata", "Workspace.xml"], ["p", "Metadata", "Master.xml"],
      ["p", "Metadata", "EventFolder"], ["p", "Metadata", "EventFolder", "lost.xml"],
      ["p", "Metadata", "Event"], ["p", "Metadata", "Event", "toll.xml"]] from rfl]
    simp only [loftDocuments, List.forall_mem_cons]
    refine ⟨?_, ?_, ?_, ?_, ?_, ?_, ?_, ?_, by simp⟩ <;> intro hi <;>
      first | exact Or.inl rfl | exact Or.inr (by simp)
  have hne : j ≠ [] := by
    rintro rfl
    cases h
  rcases hkeys j (mem_keys_of_node? hne (contentAt?_eq_some.1 h)) hj with hnone | hdocument
  · rw [hnone] at h
    cases h
  · exact hdocument

theorem gains_loft : Gains loftDocuments (fun d => some d.1) (fun d => d.2.map Object.id) bare
    ⟨loftHost, loft, {}⟩ := by
  constructor
  · have hcontent : ∀ d ∈ loftDocuments, ∃ a, some d.1 = some a ∧
        Session.idsOf ⟨loftHost, loft, {}⟩ a = d.2.map Object.id := by
      simp only [loftDocuments, List.forall_mem_cons]
      exact ⟨⟨_, rfl, idsOf_document rfl⟩, ⟨_, rfl, idsOf_document rfl⟩,
        ⟨_, rfl, idsOf_document rfl⟩, ⟨_, rfl, idsOf_document rfl⟩, by simp⟩
    intro d hd
    obtain ⟨a, ha, hids⟩ := hcontent d hd
    exact ⟨a, ha, idsOf_bare a, hids⟩
  · decide
  · intro a hothers
    rw [idsOf_bare]
    cases a with
    | pending k id => exact idsOf_pending_of_none (get?_empty k id)
    | document j hj =>
      refine idsOf_document_of_none (Option.eq_none_iff_forall_ne_some.2 fun b hb => ?_)
      obtain ⟨d, hd, hplace⟩ := exists_loftDocument hj hb
      exact hothers d hd (congrArg some hplace)

theorem unique_loft : UniqueIds ["p"] ⟨loftHost, loft, {}⟩ := by
  refine gains_loft.unique unique_bare (by decide) ?_
  rintro id - ⟨a, ha⟩
  rw [idsOf_bare] at ha
  cases ha

theorem mem_of_uses_loft {id : ObjectId} (h : Uses ["p"] ⟨loftHost, loft, {}⟩ id) :
    id ∈ loftDocuments.flatMap fun d => d.2.map Object.id := by
  obtain ⟨a, ha⟩ := h
  rcases gains_loft.cases a with hnil | ⟨d, hd, -, -, hids⟩
  · rw [hnil, idsOf_bare] at ha
    cases ha
  · rw [hids] at ha
    exact List.mem_flatMap.2 ⟨d, hd, ha⟩

theorem idsOf_toll :
    Session.idsOf ⟨loftHost, loft, {}⟩ (Home.document _ isDocumentPlace_toll) = [toll.id] := by
  have hcontent : loftFiles.contentAt? ["p", "Metadata", "Event", "toll.xml"] =
      some (loft.documentBytes [toll]) := rfl
  exact (idsOf_document hcontent).trans rfl

/-- The objects of events are in no index, so a record can be staged under the id of one. -/
theorem event_id_staged_again :
    load loftFiles loft.layout loft.keepJournals = .ok loft ∧
      UniqueIds ["p"] ⟨loftHost, loft, {}⟩ ∧
      ∃ g, ({} : Staging).stage loft .eventFolder (folderIn toll.id loft.masters.eventFolder) =
        .ok g ∧ ¬ UniqueIds ["p"] ⟨loftHost, loft, g⟩ := by
  have hstage : ({} : Staging).stage loft .eventFolder
      (folderIn toll.id loft.masters.eventFolder) =
      .ok (({} : Staging).add .eventFolder (folderIn toll.id loft.masters.eventFolder) none) := rfl
  refine ⟨load_loftFiles, unique_loft, _, hstage, fun hunique => ?_⟩
  have hclear := (unique_stage_iff (x := ⟨loftHost, loft, {}⟩) unique_loft .empty hstage).1 hunique
  have hunseen : ({} : Staging).isPending toll.id = false ∧ loft.containsAny toll.id = false := by
    decide +kernel
  rcases hclear.seen ⟨_, idsOf_toll ▸ List.mem_singleton_self toll.id⟩ with hseen | hseen
  · exact Bool.false_ne_true (hunseen.1.symm.trans hseen)
  · exact Bool.false_ne_true (hunseen.2.symm.trans hseen)

/-- The project after a commit of a bus, which has siblings. -/
def wired : Session :=
  commitAll.after ⟨loftHost, loft, ({} : Staging).add .bus reverb none⟩

theorem history_wired : History ["p"] ⟨loftHost, loft, {}⟩ wired := by
  have hnew : ∀ o ∈ reverb.objects,
      o.id ∉ loftDocuments.flatMap fun d => d.2.map Object.id := by decide
  have hunused : ∀ o ∈ reverb.objects, ¬ Uses ["p"] ⟨loftHost, loft, {}⟩ o.id :=
    fun o ho huses => hnew o ho (mem_of_uses_loft huses)
  have hclear : ClearRecord ["p"] ⟨loftHost, loft, {}⟩ reverb :=
    ⟨by decide, fun o ho => hunused o (List.mem_cons_of_mem _ ho),
      fun huses => absurd huses (hunused reverb.object List.mem_cons_self)⟩
  exact .commit (.stage (k := .bus) .refl hclear rfl)

/-- A second event under the id of the one that is there. -/
def encore : Instantiation.Request where
  template := toll.id
  eventId? := some toll.id
  name := "Encore"
  folder := loft.masters.eventFolder
  bank := loft.masters.bankFolder
  bus := loft.masterBus

theorem clear_encore : ClearRequest ["p"] ⟨loftHost, loft, {}⟩ encore := by
  have htaken : Instantiation.isTaken loft loftFiles toll.id = true := by decide
  intro id hid _
  cases hid
  exact htaken

theorem ids_stay_unique_wired : loftHost.files.WellFormed ∧
    Settings.checkAssetsDir loft.layout.assetsDir = .ok () ∧
    loftHost.files.walk loft.layout.root = .ok ["p"] ∧
    UniqueIds ["p"] ⟨loftHost, loft, {}⟩ ∧ History ["p"] ⟨loftHost, loft, {}⟩ wired ∧
    wired.store.contains .bus reverb.id = true ∧ UniqueIds ["p"] wired ∧
    ∃ e h, Instantiation.instantiate loft false encore loftHost = .error e h ∧
      h.files = loftFiles := by
  have hopen : load loftHost.files loft.layout loft.keepJournals = .ok loft := load_loftFiles
  have hassets : Settings.checkAssetsDir loft.layout.assetsDir = .ok () := by decide +kernel
  have hbase : loftHost.files.walk loft.layout.root = .ok ["p"] := by decide +kernel
  have huses : Uses ["p"] ⟨loftHost, loft, {}⟩ toll.id :=
    ⟨_, idsOf_toll ▸ List.mem_singleton_self toll.id⟩
  have hwired := ids_stay_unique hopen wellFormed_loftFiles hassets hbase unique_loft history_wired
  have hloft := ids_stay_unique hopen wellFormed_loftFiles hassets hbase unique_loft .refl
  exact ⟨wellFormed_loftFiles, hassets, hbase, unique_loft, history_wired, by decide +kernel,
    hwired.unique, hloft.refusesRequest false encore toll.id clear_encore rfl huses⟩

end AudioProject
