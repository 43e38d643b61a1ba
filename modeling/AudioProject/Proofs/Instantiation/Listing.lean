import AudioProject.Proofs.Instantiation.ReadingBack
import AudioProject.Proofs.Store.Reopening

/-
  A new event in the listings of folders. It is listed once, by its name and in its folder, in the
  listing of this folder and of all folders above it, whichever cycles the folders make; all other
  listings are as before: `listing_follows_instantiation`. A listing is sorted by name, and by id
  where names are equal.
-/

namespace AudioProject

open FileTree AudioProject.Path

namespace Store

variable {s : Store} {t : FileTree} {f p : ObjectId} {path : Path} {d : Document} {o : Object}
  {ds front back : List (Path × Document)}

/-! ## Listings -/

/-- By name, and by id where names are equal. -/
def Before (a b : EventSummary) : Prop := a.name < b.name ∨ a.name = b.name ∧ a.id.text ≤ b.id.text

/-- The order of a listing. -/
def inOrder (a b : EventSummary) : Bool := nameOrder (a.name, a.id) (b.name, b.id)

theorem inOrder_eq_true {a b : EventSummary} : inOrder a b = true ↔ Before a b := by
  simp [inOrder, nameOrder, Before]

theorem Before.trans {a b c : EventSummary} (hab : Before a b) (hbc : Before b c) : Before a c := by
  rcases hab with hab | ⟨hab, hid⟩
  · rcases hbc with hbc | ⟨hbc, -⟩
    · exact Or.inl (String.lt_trans hab hbc)
    · exact Or.inl (hbc ▸ hab)
  · rcases hbc with hbc | ⟨hbc, hid'⟩
    · exact Or.inl (hab ▸ hbc)
    · exact Or.inr ⟨hab.trans hbc, String.le_trans hid hid'⟩

theorem Before.total (a b : EventSummary) : Before a b ∨ Before b a := by
  rcases lt_trichotomy a.name b.name with hlt | heq | hlt
  · exact Or.inl (Or.inl hlt)
  · rcases String.le_total a.id.text b.id.text with hle | hle
    · exact Or.inl (Or.inr ⟨heq, hle⟩)
    · exact Or.inr (Or.inr ⟨heq.symm, hle⟩)
  · exact Or.inr (Or.inl hlt)

theorem pairwise_sorted (events : List EventSummary) :
    (events.mergeSort inOrder).Pairwise Before := by
  have hsorted : (events.mergeSort inOrder).Pairwise fun a b => inOrder a b = true :=
    List.pairwise_mergeSort
      (fun a b c hab hbc => by
        rw [inOrder_eq_true] at hab hbc ⊢
        exact hab.trans hbc)
      (fun a b => by
        rw [Bool.or_eq_true, inOrder_eq_true, inOrder_eq_true]
        exact Before.total a b) events
  exact hsorted.imp inOrder_eq_true.1

/-- The events of documents that are in a folder or below it, in the order of the documents. -/
def eventsOf (s : Store) (f : ObjectId) (ds : List (Path × Document)) : List EventSummary :=
  (ds.flatMap fun e => (e.2.allOf .event).map (summaryOf e.1)).filter fun e => s.isUnder f e.folder?

/-- A folder lists the events of the documents, sorted. -/
theorem eventsIn_eq (hf : s.contains .eventFolder f = true)
    (hds : documentsIn t s.layout.eventDir = .ok ds) :
    eventsIn s t f = .ok ((eventsOf s f ds).mergeSort inOrder) := by
  obtain ⟨e, he⟩ := Option.isSome_iff_exists.1 hf
  have hresolve : s.resolve .eventFolder f = .ok e := by
    have hlookup : s.lookup? .eventFolder f = some e := he
    unfold resolve
    rw [hlookup]
  unfold eventsIn
  rw [hresolve, ok_bind, hds]
  rfl

/-- A document with one event more comes between others. -/
theorem eventsOf_insert (hd : d.allOf .event = [o]) : eventsOf s f (front ++ (path, d) :: back) =
    if s.isUnder f (o.singleEdge? "folder") = true
    then eventsOf s f front ++ summaryOf path o :: eventsOf s f back
    else eventsOf s f (front ++ back) := by
  unfold eventsOf
  rw [List.flatMap_append, List.flatMap_cons, List.flatMap_append, hd, List.filter_append,
    List.filter_append, List.filter_append]
  by_cases hunder : s.isUnder f (o.singleEdge? "folder") = true
  · rw [if_pos hunder, List.map_singleton, List.filter_cons_of_pos (by exact hunder)]
    rfl
  · rw [if_neg hunder, List.map_singleton, List.filter_cons_of_neg (by exact hunder)]
    rfl

/-- A folder has below it itself and what it is above of. -/
theorem isUnder_some : s.isUnder f (some p) = true ↔ f = p ∨ f ∈ s.ancestors .eventFolder p := by
  unfold isUnder isDescendant
  rw [Bool.or_eq_true, decide_eq_true_iff, Hierarchy.isDescendant_iff, mem_ancestors_iff,
    eq_comm]

end Store

namespace Instantiation

open Store EventGraph

variable {s : Store} {r : Request} {base : Location} {t : FileTree} {probing : Bool}
  {ids ids' : IdSupply} {p : Plan} {g : EventGraph} {id : ObjectId} {h h' : Host}
  {ds : List (Path × Document)}

/-! ## The event of a plan -/

/-- If an object is an event, it is the one that a request asks for. -/
def IsRequested (r : Request) (id : ObjectId) (o : Object) : Prop :=
  o.objectClass = .event → o.id = id ∧ o.name? = some r.name ∧ o.edge "folder" = [r.folder]

theorem sparedByMedia_isRequested (r : Request) (id : ObjectId) :
    SparedByMedia (IsRequested r id) where
  modules := by
    intro o dests h hclass
    obtain ⟨hid, hname, hfolder⟩ := h hclass
    refine ⟨hid, hname, ?_⟩
    rwa [Object.edge, Object.get?_setEdge, if_neg (by decide)]
  groupTracks := by
    intro o dests h hclass
    obtain ⟨hid, hname, hfolder⟩ := h hclass
    refine ⟨hid, hname, ?_⟩
    rwa [Object.edge, Object.get?_setEdge, if_neg (by decide)]
  new := by
    intro o ho hclass
    rw [hclass] at ho
    exact absurd ho (by decide)

/-- What is overridden in the root of a copy is what the request says. -/
theorem isRequested_overrideNode {q : Object} (hid : q.id = id) :
    IsRequested r id (overrideNode (overrides r) id q) := by
  intro hclass
  rw [objectClass_overrideNode] at hclass
  refine ⟨(id_overrideNode _ _ _).trans hid, ?_, ?_⟩
  · rw [Object.name?, property?_overrideNode, if_pos ⟨hid, rfl⟩]
    rfl
  · have hover : overriddenEdge? (overrides r) id q "folder" = some [r.folder] := by
      simp [overriddenEdge?, hclass, hid, overrides]
    rw [Object.edge, edges_overrideNode, hover]
    rfl

/-- Of a template with one event the plan has one. -/
theorem each_isRequested (h : plan s t probing r ids = .ok p ids') (hfresh : MintsFresh r ids ids')
    (hg : s.loadEvent t r.template = .ok g) (hone : (g.ofClass .event).length = 1) :
    p.event.Each (IsRequested r p.event.root) := by
  obtain ⟨-, hroot⟩ := event_of_plan h hfresh
  rw [hroot]
  refine each_of_plan h hfresh (sparedByMedia_isRequested r _) ?_
  intro g' o names hresolves ho hnames q hq hclass
  obtain rfl : g = g' := Except.ok.inj (hg.symm.trans hresolves.template)
  obtain ⟨-, ⟨o', ho', -, hevent⟩, hkeyed⟩ := hasEvent_of_loadEvent hg
  obtain rfl : o = o' := Option.some.inj (ho.symm.trans ho')
  rw [objectClass_overrideNode] at hclass
  -- both are the one event of the template
  have hsame : q = o := by
    obtain ⟨only, honly⟩ := List.length_eq_one_iff.1 hone
    have hmem : ∀ x ∈ g.nodes.values, x.objectClass = .event → x = only := by
      intro x hx hxclass
      have hx' : x ∈ g.ofClass .event := List.mem_filter.2 ⟨hx, decide_eq_true hxclass⟩
      rw [honly] at hx'
      exact List.mem_singleton.1 hx'
    exact (hmem q hq hclass).trans (hmem o (hkeyed.get?_eq_some_iff.1 ho).1 hevent).symm
  exact isRequested_overrideNode ((hnames q hq).2 hsame) (by rwa [objectClass_overrideNode])

/-- So its document has one event, with the name and the folder of the request. -/
theorem exists_event_of_plan (h : plan s t probing r ids = .ok p ids')
    (hfresh : MintsFresh r ids ids') (hg : s.loadEvent t r.template = .ok g)
    (hone : (g.ofClass .event).length = 1) : ∃ o,
      p.event.objects.filter (·.objectClass = .event) = [o] ∧ o.id = p.event.root ∧
      o.name? = some r.name ∧ o.singleEdge? "folder" = some r.folder := by
  have hall := (each_isRequested h hfresh hg hone).objects
  have hnodup := (isKeyed_of_plan h hfresh).nodup_objects
  obtain ⟨o, rest, hobjects, hid, hclass⟩ := objects_eq_cons (event_of_plan h hfresh).1
  obtain ⟨-, hname, hfolder⟩ := hall o (hobjects ▸ List.mem_cons_self) hclass
  refine ⟨o, ?_, hid, hname, ?_⟩
  · have hrest : rest.filter (·.objectClass = .event) = [] := by
      refine List.filter_eq_nil_iff.2 fun q hq hevent => ?_
      have hqid := (hall q (hobjects ▸ List.mem_cons_of_mem _ hq) (of_decide_eq_true hevent)).1
      rw [hobjects, List.map_cons, List.nodup_cons] at hnodup
      exact hnodup.1 (List.mem_map.2 ⟨q, hq, hqid.trans hid.symm⟩)
    rw [hobjects, List.filter_cons_of_pos (by exact decide_eq_true hclass), hrest]
  · rw [Object.singleEdge?, hfolder]
    rfl

/-! ## The documents of events -/

theorem objectClass_audioFiles (h : plan s t probing r ids = .ok p ids') :
    ∀ o ∈ p.audioFiles, o.objectClass = .audioFile := by
  obtain ⟨_, haudio⟩ := (plans_of_plan h).1.audioFiles
  have hflip : List.Forall₂ (flip IsAudioFile) p.audioFiles _ :=
    List.Forall₂.flip (R := flip IsAudioFile) haudio
  exact ((List.forall₂_and_left _ _).1 (hflip.imp fun o m ho => ⟨ho.objectClass, ho⟩)).1

/-- The document of a new event comes between those of the others. -/
theorem documentsIn_of_instantiate (hanchored : Anchored h.files s.layout base)
    (hassets : Settings.checkAssetsDir s.layout.assetsDir = .ok ())
    (hop : '/' ∉ (h.operationName h.operations).toList)
    (hplan : plan s h.files probing r h.ids = .ok p ids') (hfresh : MintsFresh r h.ids ids')
    (hrun : instantiate s probing r h = .ok id h')
    (hds : documentsIn h.files s.layout.eventDir = .ok ds) :
    ∃ path front back, p.event.root = id ∧ s.eventPath? id = some path ∧ ds = front ++ back ∧
      documentsIn h'.files s.layout.eventDir =
        .ok (front ++ (path, ⟨s.model, p.event.objects⟩) :: back) := by
  obtain ⟨hid, -, hdocuments⟩ := filesInPlace_of_instantiate hanchored hassets hop hplan hrun
  obtain ⟨hevent, -⟩ := event_of_plan hplan hfresh
  obtain ⟨path, hpath, -, hread⟩ := document_of_hasDocument hevent hdocuments.event
  rw [named_of_plan hplan hfresh] at hread
  obtain ⟨hanchored', p', ids'', hplan', hadds⟩ :=
    (instantiate_documents hanchored hassets).1 id h' hrun
  obtain ⟨rfl, rfl⟩ := EStateM.Result.ok.inj (hplan.symm.trans hplan')
  obtain rfl : (s.layout.documentDir "Event").join p.eventId.fileName = path :=
    Option.some.inj hpath
  obtain ⟨o, rest, hobjects, hoid, hclass⟩ := objects_eq_cons hevent
  have hplace : documentPlace? base p.event.objects =
      some (base ++ namesOf "Event" p.eventId.fileName) := by
    rw [hobjects, documentPlace?, hclass, hoid]
    rfl
  obtain ⟨j, hj, hnew, -⟩ := hadds.new p.event.objects (List.mem_append_right _ (by simp))
  obtain rfl := Option.some.inj (hplace.symm.trans hj)
  have hothers : ∀ m, IsXml m → m ≠ p.eventId.fileName →
      h'.files.contentAt? (base ++ namesOf "Event" m) =
        h.files.contentAt? (base ++ namesOf "Event" m) := by
    intro m hxml hm
    refine hadds.others _ (isDocumentPlace_namesOf base "Event" hxml) fun os hos hsame => ?_
    rcases List.mem_append.1 hos with hos | hos
    · -- an audio file has its document elsewhere
      obtain ⟨audio, haudio, rfl⟩ := List.mem_map.1 hos
      rw [documentPlace?, objectClass_audioFiles hplan audio haudio] at hsame
      have hdirs := List.append_cancel_left (Option.some.inj hsame)
      simp [namesOf] at hdirs
    · rw [List.mem_singleton.1 hos, hplace] at hsame
      have hnames := List.append_cancel_left (Option.some.inj hsame)
      simp [namesOf] at hnames
      exact hm hnames.symm
  obtain ⟨front, back, hsplit, hdocs⟩ := documentsIn_of_new hanchored hanchored'
    (isDocumentDir_of_directory (c := .event) rfl) (isXml_fileName p.eventId) hnew hothers hread hds
  exact ⟨_, front, back, hid, hid ▸ hpath, hsplit, hdocs⟩

/-! ## The listings -/

/-- After an instantiation that went well, whose template has one event, the new event is in the
listing of its folder and of those above it, and nothing else has changed in any listing. -/
theorem listing_follows_instantiation (hanchored : Anchored h.files s.layout base)
    (hassets : Settings.checkAssetsDir s.layout.assetsDir = .ok ())
    (hop : '/' ∉ (h.operationName h.operations).toList)
    (hids : ∀ p ids', plan s h.files probing r h.ids = .ok p ids' → MintsFresh r h.ids ids')
    (hg : s.loadEvent h.files r.template = .ok g) (hone : (g.ofClass .event).length = 1)
    (hds : documentsIn h.files s.layout.eventDir = .ok ds)
    (hrun : instantiate s probing r h = .ok id h') :
    ∃ path, s.eventPath? id = some path ∧ ∀ f, s.contains .eventFolder f = true →
      ∃ before after, s.eventsIn h.files f = .ok before ∧ s.eventsIn h'.files f = .ok after ∧
        after.Pairwise Before ∧
        (f = r.folder ∨ f ∈ s.ancestors .eventFolder r.folder →
          after.Perm (⟨id, r.name, some r.folder, path⟩ :: before)) ∧
        (¬ (f = r.folder ∨ f ∈ s.ancestors .eventFolder r.folder) → after = before) := by
  cases hplan : plan s h.files probing r h.ids with
  | error e ids =>
    rw [instantiate_of_plan_error hplan] at hrun
    cases hrun
  | ok p ids' =>
    have hfresh := hids p ids' hplan
    obtain ⟨path, front, back, hid, hpath, rfl, hdocs⟩ :=
      documentsIn_of_instantiate hanchored hassets hop hplan hfresh hrun hds
    obtain ⟨o, honly, hoid, hname, hfolder⟩ := exists_event_of_plan hplan hfresh hg hone
    refine ⟨path, hpath, fun f hf => ⟨_, _, eventsIn_eq hf hds, eventsIn_eq hf hdocs,
      pairwise_sorted _, ?_⟩⟩
    have hsummary : summaryOf path o = ⟨id, r.name, some r.folder, path⟩ := by
      rw [summaryOf, hoid, hid, hname, hfolder]
      rfl
    rw [eventsOf_insert (d := ⟨s.model, p.event.objects⟩) honly, hfolder, hsummary, ← isUnder_some]
    constructor
    · intro hunder
      rw [if_pos hunder]
      refine (List.mergeSort_perm _ _).trans (List.perm_middle.trans (.cons _ ?_))
      unfold eventsOf
      rw [List.flatMap_append, List.filter_append]
      exact (List.mergeSort_perm _ _).symm
    · intro hother
      rw [if_neg hother]

/-! ### The peal is listed -/

theorem documentsIn_tower : documentsIn towerHost.files shop.layout.eventDir =
    .ok [(⟨"/p/Metadata/Event/bell.xml"⟩, ⟨shop.model, [bell]⟩)] := by
  refine documentsIn_of_single (n := "bell.xml") (by decide) (by decide)
    (by decide) (by decide) ?_
  exact readDocument_of_contentAt? (by decide)
    (l := ["p", "Metadata", "Event", "bell.xml"]) (by decide) rfl

/-- The bell is in no folder, so the peal is the first event of its own. -/
theorem listing_follows_instantiation_peal : Anchored towerHost.files shop.layout ["p"] ∧
    Settings.checkAssetsDir shop.layout.assetsDir = .ok () ∧
    '/' ∉ (towerHost.operationName towerHost.operations).toList ∧
    (∀ p ids', plan shop towerHost.files false peal towerHost.ids = .ok p ids' →
      MintsFresh peal towerHost.ids ids') ∧
    shop.loadEvent towerHost.files peal.template = .ok bellGraph ∧
    (bellGraph.ofClass .event).length = 1 ∧
    (∃ ds, documentsIn towerHost.files shop.layout.eventDir = .ok ds) ∧
    shop.eventsIn towerHost.files peal.folder = .ok [] ∧
    ∃ h', instantiate shop false peal towerHost = .ok angelusId h' ∧
      shop.eventsIn h'.files peal.folder =
        .ok [⟨angelusId, "Chime", some peal.folder, ⟨"/p/Metadata/Event/angelus.xml"⟩⟩] := by
  have hone : (bellGraph.ofClass .event).length = 1 := by decide
  have hbefore : shop.eventsIn towerHost.files peal.folder = .ok [] := by
    have hnone : shop.eventsOf peal.folder
        [(⟨"/p/Metadata/Event/bell.xml"⟩, ⟨shop.model, [bell]⟩)] = [] := by decide
    rw [eventsIn_eq (by decide) documentsIn_tower, hnone, List.mergeSort_nil]
  obtain ⟨c, hrun⟩ := instantiate_peal
  obtain ⟨path, hpath, hlistings⟩ := listing_follows_instantiation anchored_tower assetsDir_shop
    operationName_tower mintsFresh_peal resolves_peal.template hone documentsIn_tower hrun
  obtain rfl : (⟨"/p/Metadata/Event/angelus.xml"⟩ : Path) = path := by
    have hplace : shop.eventPath? angelusId = some ⟨"/p/Metadata/Event/angelus.xml"⟩ := by
      decide
    exact Option.some.inj (hplace.symm.trans hpath)
  obtain ⟨before, after, hlist, hlist', -, hcomes, -⟩ := hlistings peal.folder (by decide)
  obtain rfl : [] = before := Except.ok.inj (hbefore.symm.trans hlist)
  rw [List.perm_singleton.1 (hcomes (Or.inl rfl))] at hlist'
  exact ⟨anchored_tower, assetsDir_shop, operationName_tower, mintsFresh_peal,
    resolves_peal.template, hone, ⟨_, documentsIn_tower⟩, hbefore, _, hrun, hlist'⟩

end Instantiation

end AudioProject
