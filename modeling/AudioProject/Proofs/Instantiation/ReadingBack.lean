import AudioProject.Proofs.EventGraph.Extraction
import AudioProject.Proofs.EventGraph.Nodes
import AudioProject.Proofs.Instantiation.Media

/-
  A new event is read back from its document as the plan has it. The document holds the nodes of the
  plan with the event in front; what the root leads to among them is the event again, under the
  version of the store: `instantiate_read_back`. Nothing is lost on the way, as the classes of all
  nodes are known by their names: those of a template come from a document, and media bring in
  known ones.
-/

namespace AudioProject

open FileTree Store Document

namespace Instantiation

variable {s : Store} {r : Request} {base : Location} {t : FileTree} {probing : Bool}
  {ids ids' : IdSupply} {p : Plan} {g : EventGraph} {id : ObjectId} {P : Object → Prop}

/-- The nodes of an event that was loaded come from a document. -/
theorem each_isNamedClass_of_loadEvent (h : s.loadEvent t id = .ok g) :
    g.Each fun o => IsNamedClass o.objectClass := by
  obtain ⟨path, d, -, -, hread, hextract⟩ := loadEvent_eq_ok.1 h
  obtain ⟨_, _, -, -, hparse⟩ := readDocument_eq_ok.1 hread
  obtain ⟨-, rfl⟩ := EventGraph.extract?_eq_some_iff.1 hextract
  refine EventGraph.Each.prune fun _ o ho => ?_
  exact hasNamedClasses_of_parse hparse o (mem_of_definitions ho).1

/-- What media leave, and the copies of all nodes of the template have, has the whole plan. The
copies have the id of the new event where they were the old one, and else others. -/
theorem each_of_plan (h : plan s t probing r ids = .ok p ids') (hfresh : MintsFresh r ids ids')
    (hP : EventGraph.SparedByMedia P)
    (hcopied : ∀ g o names, Resolves s t r g → g.rootObject? = some o →
      (∀ q ∈ g.nodes.values, Renaming.apply names q.id = (eventId r ids).1 ↔ q = o) →
      ∀ q ∈ g.nodes.values, P (EventGraph.overrideNode (overrides r) (eventId r ids).1
        (EventGraph.renameNode names q))) :
    p.event.Each P := by
  obtain ⟨g, event, hresolves, hgraft, hevent⟩ := graft_of_plan h
  obtain ⟨-, ⟨o, ho, -⟩, hkeyed⟩ := hasEvent_of_loadEvent hresolves.template
  obtain ⟨hcopy, hrest⟩ := EventGraph.precedes_graft_copy hgraft
  obtain ⟨hrenames, hknown⟩ := EventGraph.renames_copy (g := g)
    (isFresh_eventId hfresh ((precedes_eventId r ids).trans (hcopy.trans hrest))) hrest
  have hnodes : ((g.copy (eventId r ids).1 (eventId r ids).2).1.override (overrides r)).1.Each P :=
    EventGraph.each_override_rename _ _ _ _ (hcopied g o _ hresolves ho fun q hq =>
      hrenames.apply_eq_iff hknown hkeyed ho hq)
  have hgrafted := hnodes.graft hP (r.media.map (prepare t probing))
    (g.copy (eventId r ids).1 (eventId r ids).2).2.2 s.masters.assetFolder
  rw [hgraft] at hgrafted
  rcases hevent with rfl | hevent
  · exact hgrafted
  · rw [hevent]
    exact hgrafted.prune

/-- The nodes of a plan stand under their own ids. -/
theorem isKeyed_of_plan (h : plan s t probing r ids = .ok p ids')
    (hfresh : MintsFresh r ids ids') : p.event.IsKeyed := by
  obtain ⟨g, event, hresolves, hgraft, hevent⟩ := graft_of_plan h
  obtain ⟨-, -, hkeyed⟩ := hasEvent_of_loadEvent hresolves.template
  have hrest := (EventGraph.precedes_graft_copy hgraft).1.trans
    (EventGraph.precedes_graft_copy hgraft).2
  obtain ⟨_, -, hids⟩ := EventGraph.ids_of_graft_copy hkeyed hgraft
    (isFresh_eventId hfresh ((precedes_eventId r ids).trans hrest))
  rcases hevent with rfl | hevent
  · exact hids.keyed
  · rw [hevent]
    exact hids.prune.keyed

theorem sparedByMedia_isNamedClass :
    EventGraph.SparedByMedia fun o => IsNamedClass o.objectClass where
  modules := fun _ _ h => h
  groupTracks := fun _ _ h => h
  new := by
    intro o ho
    have hnamed : ∀ c ∈ EventGraph.mediaClasses, c = .ofName c.name := by decide
    exact ⟨_, hnamed _ ho⟩

/-- A document keeps the classes of a plan. -/
theorem named_of_plan (h : plan s t probing r ids = .ok p ids') (hfresh : MintsFresh r ids ids') :
    p.event.objects.map Object.named = p.event.objects := by
  have hclasses := each_of_plan h hfresh sparedByMedia_isNamedClass fun g _ _ hresolves _ _ q hq => by
    obtain ⟨-, -, hkeyed⟩ := hasEvent_of_loadEvent hresolves.template
    rw [EventGraph.objectClass_overrideNode]
    exact each_isNamedClass_of_loadEvent hresolves.template q.id q
      (hkeyed.get?_eq_some_iff.2 ⟨hq, rfl⟩)
  refine (List.map_congr_left fun o ho => ?_).trans (List.map_id _)
  unfold Object.named
  rw [(hclasses.objects o ho).ofName_name]
  rfl

/-- After an instantiation that went well, its event is loaded as planned: the nodes of the plan that
the root leads to, with the root in front. -/
theorem instantiate_read_back {h h' : Host} (hanchored : Anchored h.files s.layout base)
    (hassets : Settings.checkAssetsDir s.layout.assetsDir = .ok ())
    (hop : '/' ∉ (h.operationName h.operations).toList)
    (hids : ∀ p ids', plan s h.files probing r h.ids = .ok p ids' → MintsFresh r h.ids ids')
    (hrun : instantiate s probing r h = .ok id h') :
    ∃ p ids' g', plan s h.files probing r h.ids = .ok p ids' ∧ p.event.root = id ∧
      s.loadEvent h'.files id = .ok g' ∧ EventGraph.IsCore p.event s.model g' := by
  cases hplan : plan s h.files probing r h.ids with
  | error e ids =>
    rw [instantiate_of_plan_error hplan] at hrun
    cases hrun
  | ok p ids' =>
    obtain ⟨hid, -, hdocuments⟩ := filesInPlace_of_instantiate hanchored hassets hop hplan hrun
    obtain ⟨hevent, -⟩ := event_of_plan hplan (hids p ids' hplan)
    obtain ⟨path, hpath, hhas, hread⟩ := document_of_hasDocument hevent hdocuments.event
    rw [named_of_plan hplan (hids p ids' hplan)] at hread
    obtain ⟨g', hextract, hcore⟩ := EventGraph.extract?_objects hevent
      (isKeyed_of_plan hplan (hids p ids' hplan)) s.model
    have hroot : p.event.root = id := hid
    rw [hroot] at hextract
    exact ⟨p, ids', g', rfl, hroot,
      loadEvent_eq_ok.2 ⟨path, _, hid ▸ hpath, hhas, hread, hextract⟩, hcore⟩

/-- The peal, with its bell and its gong. -/
theorem instantiate_read_back_peal : Anchored towerHost.files shop.layout ["p"] ∧
    Settings.checkAssetsDir shop.layout.assetsDir = .ok () ∧
    '/' ∉ (towerHost.operationName towerHost.operations).toList ∧
    (∀ p ids', plan shop towerHost.files false peal towerHost.ids = .ok p ids' →
      MintsFresh peal towerHost.ids ids') ∧
    ∃ h', instantiate shop false peal towerHost = .ok angelusId h' ∧
      ∃ p ids' g', plan shop towerHost.files false peal towerHost.ids = .ok p ids' ∧
        p.event.root = angelusId ∧ shop.loadEvent h'.files angelusId = .ok g' ∧
        EventGraph.IsCore p.event shop.model g' := by
  obtain ⟨c, hrun⟩ := instantiate_peal
  exact ⟨anchored_tower, assetsDir_shop, operationName_tower, mintsFresh_peal, _, hrun,
    instantiate_read_back anchored_tower assetsDir_shop operationName_tower mintsFresh_peal hrun⟩

end Instantiation

end AudioProject
