import AudioProject.Proofs.Document.Classes
import AudioProject.Proofs.Document.Elements
import AudioProject.Proofs.OrderedMap

/-
  A printed document is read back as it was. Properties, relationships and objects are each read
  as the element they are written as; the state between them is `inRoot`, which has the objects
  that are complete and the one that is open. A class is read by its name, so the document has to
  have classes as names give them, which every document that was read has.
-/

namespace AudioProject.Document

open Markup Text

/-- The state inside the root, with `o` open or no object, and nothing that takes text. -/
def inRoot (m : Model) (done : List Object) (o : Option Object) : Reading :=
  { model := some m, objects := done, current := o, sawRoot := true }

variable (m : Model) (done : List Object) (opened : List (List Char))

/-! ## Properties and relationships -/

theorem reads_value (o : Object) (name value : String) :
    Reads (leaf 3 "value" value).toList opened opened
      { inRoot m done (some o) with property := some name }
      { inRoot m done (some (o.setProperty name value)) with property := some name } := by
  refine reads_leaf (by decide) 3 value
    { inRoot m done (some o) with property := some name, slot := .value } rfl (by simp) ?_ ?_
  · intro position
    rfl
  · intro position
    simp [Reading.closeTag, Reading.endValue, inRoot]

theorem reads_property (o : Object) (p : String × String) :
    Reads (propertyText p).toList opened opened (inRoot m done (some o))
      (inRoot m done (some (o.setProperty p.1 p.2))) := by
  refine reads_branch (by decide) 2 { inRoot m done (some o) with property := some p.1 }
    { inRoot m done (some (o.setProperty p.1 p.2)) with property := some p.1 }
    (toList_attributeText "name" p.1) (by simp; decide) (by simp) rfl rfl ?_ ?_ ?_
  · intro position
    have hsome : (inRoot m done (some o)).current.isSome = true := rfl
    show Reading.openProperty _ _ position = _
    rw [Reading.openProperty, if_pos hsome, required_written _ (by simp) List.mem_cons_self,
      ok_bind]
  · simpa using reads_value m done ("property".toList :: opened) o p.1 p.2
  · intro position
    rfl

theorem trimChars_idText {cs : List Char} (h : ∀ c ∈ cs, IsIdChar c) : trimChars cs = cs := by
  have hblank : ∀ c ∈ cs, isBlank c = false := by
    intro c hc
    have hid := (h c hc).1
    rw [Bool.or_eq_false_iff] at hid
    exact hid.1
  have hdrop : ∀ ds : List Char, (∀ c ∈ ds, isBlank c = false) → ds.dropWhile isBlank = ds := by
    intro ds hds
    cases ds with
    | nil => rfl
    | cons d ds => rw [List.dropWhile_cons_of_neg (by simp [hds d List.mem_cons_self])]
  unfold trimChars trimStart
  rw [hdrop cs hblank, hdrop cs.reverse (fun c hc => hblank c (List.mem_reverse.1 hc)),
    List.reverse_reverse]

theorem reads_destination (label : String) (o : Object) (id : ObjectId) :
    Reads (leaf 3 "destination" id.text).toList opened opened
      { inRoot m done (some o) with relationship := some label }
      { inRoot m done (some (o.pushEdge label id)) with relationship := some label } := by
  refine reads_leaf (by decide) 3 id.text
    { inRoot m done (some o) with relationship := some label, slot := .destination } rfl (by simp)
    ?_ ?_
  · intro position
    rfl
  · intro position
    have hid : ObjectId.ofString? (String.ofList (trimChars id.text.toList)) = .ok id := by
      rw [trimChars_idText id.isIdText.2, String.ofList_toList]
      exact (ObjectId.ofString?_eq_ok_iff _ _).2 rfl
    show Reading.endDestination _ = _
    simp [Reading.endDestination, inRoot, hid, Reading.checked, ok_bind]

/-- What a relationship makes of the object it stands in. -/
def addEdge (o : Object) (e : String × List ObjectId) : Object :=
  o.setEdge e.1 (o.edge e.1 ++ e.2)

theorem foldl_pushEdge (label : String) (ids : List ObjectId) (o : Object) (first : List ObjectId) :
    ids.foldl (fun o id => o.pushEdge label id) (o.setEdge label first) =
      o.setEdge label (first ++ ids) := by
  induction ids generalizing first with
  | nil => simp
  | cons id ids ih =>
    have hpush : (o.setEdge label first).pushEdge label id = o.setEdge label (first ++ [id]) := by
      simp [Object.pushEdge, Object.setEdge, Object.edge, OrderedMap.insert_insert]
    rw [List.foldl_cons, hpush, ih, List.append_assoc, List.singleton_append]

theorem reads_relationship (o : Object) (e : String × List ObjectId) :
    Reads (relationshipText e).toList opened opened (inRoot m done (some o))
      (inRoot m done (some (addEdge o e))) := by
  have hpushed : addEdge o e =
      e.2.foldl (fun o id => o.pushEdge e.1 id) (o.setEdge e.1 (o.edge e.1)) :=
    (foldl_pushEdge e.1 e.2 o _).symm
  rw [hpushed]
  refine reads_branch (by decide) 2
    { inRoot m done (some (o.setEdge e.1 (o.edge e.1))) with relationship := some e.1 }
    { inRoot m done (some (e.2.foldl (fun o id => o.pushEdge e.1 id)
      (o.setEdge e.1 (o.edge e.1)))) with relationship := some e.1 }
    (toList_attributeText "name" e.1) (by simp; decide) (by simp) rfl rfl ?_ ?_ ?_
  · intro position
    have hopen : (inRoot m done (some o)).openTag
        (writtenTag "relationship".toList [("name".toList, e.1.toList)]) false position =
        (inRoot m done (some o)).openRelationship
          (writtenTag "relationship".toList [("name".toList, e.1.toList)]) false position := by
      simp [Reading.openTag, writtenTag]
    rw [hopen, Reading.openRelationship, required_written _ (by simp) List.mem_cons_self, ok_bind]
    rfl
  · rw [List.flatMap_map]
    exact Reads.flatMap (fun o => { inRoot m done (some o) with relationship := some e.1 })
      (reads_destination m done _ e.1) e.2 _
  · intro position
    rfl

/-! ## Objects and documents -/

theorem foldl_setProperty (ps : List (String × String)) (o : Object) :
    ps.foldl (fun o p => o.setProperty p.1 p.2) o =
      { o with properties := ps.foldl (fun m p => m.insert p.1 p.2) o.properties } := by
  induction ps generalizing o with
  | nil => rfl
  | cons p ps ih => exact ih _

theorem foldl_addEdge (es : List (String × List ObjectId)) (o : Object)
    (h : ((o.edges.toList ++ es).map Prod.fst).Nodup) :
    es.foldl addEdge o =
      { o with edges := es.foldl (fun m e => m.insert e.1 e.2) o.edges } := by
  induction es generalizing o with
  | nil => rfl
  | cons e es ih =>
    have hnew : e.1 ∉ o.edges.keys := by
      rw [List.map_append, List.nodup_append] at h
      intro hmem
      exact h.2.2 _ hmem _ (by simp) rfl
    have hadd : addEdge o e = o.setEdge e.1 e.2 := by
      have hnone : o.edges.get? e.1 = none := OrderedMap.get?_eq_none_of_not_mem _ hnew
      simp [addEdge, Object.edge, hnone]
    have hsplit : (o.edges.insert e.1 e.2).toList ++ es = o.edges.toList ++ e :: es := by
      rw [OrderedMap.toList_insert_of_not_mem _ hnew]
      simp
    rw [List.foldl_cons, hadd]
    exact ih _ (hsplit ▸ h)

/-- An object is made again from its id, its class, its properties and its relationships. -/
theorem foldl_object (o : Object) :
    o.edges.toList.foldl addEdge (o.properties.toList.foldl (fun o p => o.setProperty p.1 p.2)
      { id := o.id, objectClass := o.objectClass }) = o := by
  rw [foldl_setProperty, foldl_addEdge o.edges.toList _ (by exact o.edges.nodup)]
  show Object.mk o.id o.objectClass (OrderedMap.ofList o.properties.toList)
    (OrderedMap.ofList o.edges.toList) = o
  rw [OrderedMap.ofList_toList, OrderedMap.ofList_toList]

theorem reads_object (o : Object) (hclass : IsNamedClass o.objectClass) :
    Reads (objectText o).toList opened opened (inRoot m done none)
      (inRoot m (done ++ [o]) none) := by
  have has : (attributeText "class" o.objectClass.name ++ attributeText "id" o.id.text).toList =
      attributesChars [("class".toList, o.objectClass.name.toList),
        ("id".toList, o.id.text.toList)] := by
    simp [toList_attributeText, attributesChars]
  refine reads_branch (by decide) 1
    (inRoot m done (some { id := o.id, objectClass := o.objectClass }))
    (inRoot m done (some o)) has (by simp; decide) (by simp) rfl rfl ?_ ?_ ?_
  · intro position
    show Reading.openObject _ _ false position = _
    have hid : ObjectId.ofString? o.id.text = .ok o.id :=
      (ObjectId.ofString?_eq_ok_iff _ _).2 rfl
    rw [Reading.openObject, if_neg (by simp [inRoot]), if_neg (by simp [inRoot]),
      required_written _ (by simp) List.mem_cons_self, ok_bind,
      required_written _ (by simp) (List.mem_cons_of_mem _ List.mem_cons_self), ok_bind, hid,
      show Reading.checked (.ok o.id) = .ok o.id from rfl, ok_bind, hclass.ofName_name]
    rfl
  · rw [List.flatMap_append, List.flatMap_map, List.flatMap_map]
    refine (Reads.flatMap (fun o => inRoot m done (some o))
      (reads_property m done _) o.properties.toList _).append ?_
    have h := Reads.flatMap (fun o => inRoot m done (some o))
      (reads_relationship m done ("object".toList :: opened)) o.edges.toList
      (o.properties.toList.foldl (fun o p => o.setProperty p.1 p.2)
        { id := o.id, objectClass := o.objectClass })
    rwa [foldl_object] at h
  · intro position
    rfl

theorem reads_objects (os : List Object) (hclass : ∀ o ∈ os, IsNamedClass o.objectClass) :
    Reads (os.flatMap fun o => (objectText o).toList) opened opened (inRoot m done none)
      (inRoot m (done ++ os) none) := by
  induction os generalizing done with
  | nil => simpa using Reads.nil opened _
  | cons o os ih =>
    rw [List.flatMap_cons, List.append_cons]
    exact (reads_object m done opened o (hclass o List.mem_cons_self)).append
      (ih (done ++ [o]) fun o h => hclass o (List.mem_cons_of_mem _ h))

/-- The line in front of the root leaves no event. -/
theorem events_declaration (cs : List Char) :
    events ("<?xml version=\"1.0\" encoding=\"UTF-8\"?>".toList ++ cs) =
      eventsFrom [] (lexFrom (.data []) 38 38 cs) := rfl

theorem parse_print {d : Document} (h : d.HasNamedClasses) : parse d.print = .ok d := by
  have hroot : Reads (branch 0 "objects" (attributeText "serializationModel" d.model.text)
      (d.objects.map objectText)).toList [] [] {}
      { inRoot d.model d.objects none with closedRoot := true } := by
    refine reads_branch (by decide) 0 (inRoot d.model [] none) (inRoot d.model d.objects none)
      (toList_attributeText "serializationModel" d.model.text) (by simp; decide) (by simp) rfl rfl
      ?_ ?_ ?_
    · intro position
      show Reading.openRoot _ _ false position = _
      rw [Reading.openRoot, required_written _ (by simp) List.mem_cons_self, ok_bind,
        Model.ofString?_text, show Reading.checked (.ok d.model) = .ok d.model from rfl, ok_bind]
      rfl
    · rw [List.flatMap_map]
      exact reads_objects d.model [] _ d.objects h
    · intro position
      rfl
  have htext : d.print.toList = "<?xml version=\"1.0\" encoding=\"UTF-8\"?>".toList ++
      ((branch 0 "objects" (attributeText "serializationModel" d.model.text)
        (d.objects.map objectText)).toList ++ "\n".toList) := by
    have happend : ∀ a b c : String, (a ++ b ++ c).toList = a.toList ++ (b.toList ++ c.toList) := by
      simp
    exact happend _ _ _
  have hrun : Reading.run {} (events d.print.toList) =
      .ok { inRoot d.model d.objects none with closedRoot := true } := by
    rw [htext, events_declaration]
    exact hroot 38 "\n".toList
  unfold parse ofEvents?
  rw [hrun]
  rfl

/-- A document whose classes are given by names comes back from its printed form, and so does
every document that was read from any text. -/
theorem print_round_trip :
    (∀ d : Document, d.HasNamedClasses → parse d.print = .ok d) ∧
      ∀ (s : String) (d : Document), parse s = .ok d → parse d.print = .ok d :=
  ⟨fun _ h => parse_print h, fun _ _ h => parse_print (hasNamedClasses_of_parse h)⟩

/-- Two objects with one id, an empty relationship, and text that markup has to hide. -/
def tangled : Document where
  model := ⟨"Studio.02.02.00", by decide⟩
  objects :=
    [{ id := ⟨"\x7b1\x7d", by decide⟩
       objectClass := .event
       properties := ⟨[("", " a<b>&'\"\n"), ("é ", "")], by decide⟩
       edges := ⟨[("to \"me\"", [⟨"x", by decide⟩, ⟨"x", by decide⟩]), ("", [])], by decide⟩ },
     { id := ⟨"\x7b1\x7d", by decide⟩, objectClass := .other "<Mine>" }]

theorem hasNamedClasses_tangled : tangled.HasNamedClasses := by
  intro o ho
  simp only [tangled, List.mem_cons, List.not_mem_nil, or_false] at ho
  rcases ho with rfl | rfl
  · exact ⟨"Event", rfl⟩
  · exact ⟨"<Mine>", rfl⟩

theorem print_round_trip_tangled :
    tangled.HasNamedClasses ∧ parse tangled.print = .ok tangled ∧
      parse "<objects serializationModel='Studio.1.0.0'/>" = .ok ⟨⟨"Studio.1.0.0", by decide⟩, []⟩ ∧
      parse (print ⟨⟨"Studio.1.0.0", by decide⟩, []⟩) = .ok ⟨⟨"Studio.1.0.0", by decide⟩, []⟩ := by
  have hbare : parse "<objects serializationModel='Studio.1.0.0'/>" =
      .ok ⟨⟨"Studio.1.0.0", by decide⟩, []⟩ := by rfl
  exact ⟨hasNamedClasses_tangled, print_round_trip.1 tangled hasNamedClasses_tangled, hbare,
    print_round_trip.2 _ _ hbare⟩

end AudioProject.Document
