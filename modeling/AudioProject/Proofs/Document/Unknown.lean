import AudioProject.Proofs.Document.Around
import AudioProject.Proofs.Document.Independence

/-
  Elements with names that mean nothing. Their tags are passed over, and only those: what stands in
  such an element is read as if it stood in the element around it. Between the children of an
  object nothing is being filled (`InObject.rests`), so an element with such a name can stand there
  if no tag in it means anything at that place: a value needs a property for that, and a
  destination a relationship (`Reading.Ignores`).
-/

namespace AudioProject.Document

open Markup Text

/-- The names that mean something. -/
def knownNames : List String :=
  ["objects", "object", "property", "relationship", "value", "destination"]

/-- The names that mean something wherever they stand. -/
def buildingNames : List String := ["objects", "object", "property", "relationship"]

/-- A text is one element; what stands between its tags are events that are complete, and
character data behind them. -/
structure IsElement (text content : String) (tag : Tag) (es : List Event) (raw : List Char) :
    Prop where
  whole : Stands text.toList (.start tag :: (es ++ dataEvents raw ++ [.finish tag.name])) ∨
    es = [] ∧ raw = [] ∧ Stands text.toList [.empty tag]
  content : Leads content.toList es raw
  balanced : Balanced es

/-- A place right inside an object, behind a text that ends in character data. No value is open
around the object, or no empty element for a property stands in front. -/
structure InObject (head : String) (es : List Event) (raw : List Char) : Prop where
  leads : Leads (withoutMark head.toList) es raw
  object : (openIn es).head? = some "object"
  noValue : "value" ∉ openIn es ∨ ∀ e ∈ es, e.isLoose = false

namespace Reading

/-! ## Names without a meaning -/

/-- A state in which the tags with a name change nothing. -/
structure Ignores (r : Reading) (name : String) : Prop where
  building : name ∉ buildingNames
  value : name = "value" → r.property = none ∧ r.slot ≠ .value
  destination : name = "destination" → r.relationship = none ∧ r.slot ≠ .destination

theorem ignores_of_unknown {name : String} (h : name ∉ knownNames) (r : Reading) :
    r.Ignores name where
  building hmem := h (by
    simp only [buildingNames, knownNames, List.mem_cons, List.not_mem_nil, or_false] at hmem ⊢
    tauto)
  value heq := absurd (by simp [heq, knownNames]) h
  destination heq := absurd (by simp [heq, knownNames]) h

theorem Ignores.opens {r : Reading} {tag : Tag} (h : r.Ignores (String.ofList tag.name))
    (empty : Bool) : Opens r tag empty r := by
  have hother : ∀ name ∈ buildingNames, String.ofList tag.name ≠ name :=
    fun name hmem heq => h.building (heq ▸ hmem)
  exact .passed {
    notRoot := hother _ (by simp [buildingNames])
    notObject := hother _ (by simp [buildingNames])
    notRelationship := hother _ (by simp [buildingNames])
    property := fun heq => absurd heq (hother _ (by simp [buildingNames]))
    value := fun heq => (h.value heq).1
    destination := fun heq => Or.inl (h.destination heq).1 }

theorem Ignores.closes {r : Reading} {name : List Char} (h : r.Ignores (String.ofList name)) :
    Closes r name r := by
  have hother : ∀ other ∈ buildingNames, String.ofList name ≠ other :=
    fun other hmem heq => h.building (heq ▸ hmem)
  exact .passed (hother _ (by simp [buildingNames])) (hother _ (by simp [buildingNames]))
    (hother _ (by simp [buildingNames])) (hother _ (by simp [buildingNames]))
    (fun heq => (h.value heq).2) (fun heq => (h.destination heq).2)

/-- Well-formed content that means nothing changes nothing, where character data is ignored. -/
theorem runs_ignored {r : Reading} {es : List Event} (hes : Balanced es)
    (hslot : r.slot = .ignored)
    (htags : ∀ e ∈ es, ∀ name, e.isTag name = true → r.Ignores name) : r.Runs es r := by
  induction hes with
  | nil => rfl
  | text raw => exact ⟨r, addText_ignored hslot raw, rfl⟩
  | cdata content => exact ⟨r, (if_pos hslot).symm, rfl⟩
  | empty tag =>
    have hignores := htags (.empty tag) (by simp) _ (decide_eq_true rfl)
    exact ⟨r, hignores.opens true, rfl⟩
  | element tag _ ih =>
    have hignores := htags (.start tag) (by simp) _ (decide_eq_true rfl)
    have hinner := ih fun e he => htags e (by simp [he])
    exact ⟨r, hignores.opens false, hinner.append ⟨r, hignores.closes, rfl⟩⟩
  | append _ _ ih₁ ih₂ =>
    have hfirst := ih₁ fun e he => htags e (List.mem_append_left _ he)
    have hsecond := ih₂ fun e he => htags e (List.mem_append_right _ he)
    exact hfirst.append hsecond

/-- Of an element whose name means nothing, what stands in it is read. -/
theorem yields_element_iff {r : Reading} {tag : Tag} (h : String.ofList tag.name ∉ knownNames)
    (es fs : List Event) (d : Document) :
    r.Yields (.start tag :: (es ++ [.finish tag.name]) ++ fs) d ↔ r.Yields (es ++ fs) d := by
  have hstart : r.Runs [.start tag] r := ⟨r, (ignores_of_unknown h r).opens false, rfl⟩
  have hfinish : ∀ r' : Reading, r'.Runs [.finish tag.name] r' := fun r' =>
    ⟨r', (ignores_of_unknown h r').closes, rfl⟩
  rw [← List.singleton_append, List.append_assoc, yields_append_of_runs hstart, List.append_assoc,
    yields_append_iff, yields_append_iff]
  refine exists_congr fun r' => and_congr_right fun _ => ?_
  rw [yields_append_of_runs (hfinish r')]

/-- Ignored character data could be left out. -/
theorem yields_data_iff {r : Reading} (hslot : r.slot = .ignored) (raw : List Char)
    (es : List Event) (d : Document) : r.Yields (dataEvents raw ++ es) d ↔ r.Yields es d :=
  yields_append_of_runs ((runs_texts_iff hslot _).2 rfl) es d

end Reading

/-! ## Between the children of an object -/

section InObject

variable {head tail text content : String} {before es : List Event} {raw' raw : List Char}
  {tag : Tag} {d : Document}

theorem InObject.ne_nil (h : InObject head before raw') : head.toList ≠ [] := by
  intro hempty
  obtain ⟨xs, hcut, hevents⟩ := h.leads.cut
  have hnone : xs = [] := by
    rw [hempty] at hcut
    exact (congrArg Prod.fst (Option.some.inj hcut)).symm
  have hobject := h.object
  rw [← hevents, hnone] at hobject
  cases hobject

/-- Nothing is being filled between the children of an object. -/
theorem InObject.rests (h : InObject head before raw') {r : Reading}
    (hrun : Reading.Runs {} before r) :
    r.slot = .ignored ∧ r.current.isSome = true ∧ r.relationship = none ∧
      ((∀ e ∈ before, e.isLoose = false) → r.property = none) := by
  have hwithin := hrun.within_openIn h.leads.nests
  obtain ⟨hrelationship, hdestination, hstrict⟩ := hwithin.rests h.object
  have hany : (∀ e ∈ before, e.isLoose = false) → before.any Event.isLoose = false := by
    intro hnone
    rw [List.any_eq_false]
    intro e he
    simp [hnone e he]
  have hvalue : r.slot ≠ .value := by
    rcases h.noValue with hvalue | hnone
    · exact fun hfilled => hvalue (hwithin.value hfilled)
    · exact (hstrict (hany hnone)).2
  refine ⟨?_, hwithin.isSome_current (List.mem_of_mem_head? h.object), hrelationship,
    fun hnone => (hstrict (hany hnone)).1⟩
  cases hslot : r.slot with
  | ignored => rfl
  | value => exact absurd hslot hvalue
  | destination => exact absurd hslot hdestination

/-- A text is read from the state between the children of an object. -/
theorem InObject.parse_iff (h : InObject head before raw') (tail : String) :
    parse (head ++ tail) = .ok d ↔ ∃ r : Reading, Reading.Runs {} before r ∧
      r.Yields (eventsIn (before.foldl Event.nest []) tail.toList) d := by
  obtain ⟨data, rest, halone, hbehind⟩ := h.leads.eventsIn_append [] tail.toList
  rw [List.append_nil] at halone
  rw [parse_iff_yields, stream, String.toList_append, withoutMark_append h.ne_nil, hbehind,
    halone, Reading.yields_append_iff]
  refine exists_congr fun r => and_congr_right fun hrun => ?_
  have hslot := (h.rests hrun).1
  rw [Reading.yields_data_iff hslot, Reading.yields_data_iff hslot]

/-- An element whose name means nothing, by the events of its content. -/
theorem IsElement.yields_iff (h : IsElement text content tag es raw)
    (hunknown : String.ofList tag.name ∉ knownNames) (opened : List (List Char))
    (ds : List Char) (r : Reading) :
    r.Yields (eventsIn opened (text.toList ++ ds)) d ↔
      r.Yields (es ++ dataEvents raw ++ eventsIn opened ds) d := by
  rcases h.whole with hstands | ⟨rfl, rfl, hstands⟩
  · have hbalanced : Balanced (es ++ dataEvents raw) := h.balanced.append (balanced_texts _)
    rw [hstands.eventsIn_balanced (.element tag hbalanced), Reading.yields_element_iff hunknown]
  · have hempty : r.Runs [.empty tag] r :=
      ⟨r, (Reading.ignores_of_unknown hunknown r).opens true, rfl⟩
    rw [hstands.eventsIn_balanced (.empty tag), Reading.yields_append_of_runs hempty]
    rfl

/-- The content of an element alone. Where character data is ignored, it does not matter that the
text behind it makes the last of it longer. -/
theorem IsElement.yields_content_iff (h : IsElement text content tag es raw)
    (opened : List (List Char)) (ds : List Char) {r : Reading} (hslot : r.slot = .ignored)
    (hinside : r.current.isSome = true) :
    r.Yields (eventsIn opened (content.toList ++ ds)) d ↔
      r.Yields (es ++ dataEvents raw ++ eventsIn opened ds) d := by
  obtain ⟨data, rest, halone, hbehind⟩ := h.content.eventsIn_append opened ds
  rw [h.balanced.foldl_nest, List.nil_append] at halone
  rw [hbehind, halone, List.append_assoc, Reading.yields_append_iff, Reading.yields_append_iff]
  refine exists_congr fun r' => and_congr_right fun hrun => ?_
  have hslot' : r'.slot = .ignored :=
    (hrun.stays h.balanced hinside).1.slot.elim (fun heq => heq.trans hslot) id
  rw [Reading.yields_data_iff hslot', Reading.yields_data_iff hslot',
    Reading.yields_data_iff hslot']

/-- Content without a tag that means something between the children of an object changes nothing
there. -/
theorem InObject.runs_ignored (h : InObject head before raw') {r : Reading}
    (hrun : Reading.Runs {} before r) (hes : Balanced es)
    (hbuilding : ∀ e ∈ es, ∀ name ∈ buildingNames, e.isTag name = false)
    (hvalue : (∀ e ∈ es, e.isTag "value" = false) ∨ ∀ e ∈ before, e.isLoose = false) :
    r.Runs es r := by
  obtain ⟨hslot, -, hrelationship, hproperty⟩ := h.rests hrun
  refine Reading.runs_ignored hes hslot fun e he name hname => ⟨fun hmem => ?_, ?_, ?_⟩
  · rw [hbuilding e he name hmem] at hname
    cases hname
  · rintro rfl
    refine ⟨?_, by simp [hslot]⟩
    rcases hvalue with hnone | hnone
    · rw [hnone e he] at hname
      cases hname
    · exact hproperty hnone
  · rintro rfl
    exact ⟨hrelationship, by simp [hslot]⟩

end InObject

/-- An element whose name means nothing, put between two children of an object, is read as what
stands in it would be without its tags. So it changes nothing if no tag in it means anything
there: none for a root, an object, a property or a relationship, and none for a value unless no
empty element for a property stands in front. -/
theorem unknown_elements_pass {head tail text content : String} {before es : List Event}
    {raw' raw : List Char} {tag : Tag} (hplace : InObject head before raw')
    (helement : IsElement text content tag es raw)
    (hunknown : String.ofList tag.name ∉ knownNames) :
    (∀ d, parse (head ++ text ++ tail) = .ok d ↔ parse (head ++ content ++ tail) = .ok d) ∧
      ((∀ e ∈ es, ∀ name ∈ buildingNames, e.isTag name = false) →
        ((∀ e ∈ es, e.isTag "value" = false) ∨ ∀ e ∈ before, e.isLoose = false) →
        ∀ d, parse (head ++ text ++ tail) = .ok d ↔ parse (head ++ tail) = .ok d) := by
  constructor
  · intro d
    rw [String.append_assoc, String.append_assoc, hplace.parse_iff, hplace.parse_iff]
    refine exists_congr fun r => and_congr_right fun hrun => ?_
    obtain ⟨hslot, hinside, -⟩ := hplace.rests hrun
    rw [String.toList_append, String.toList_append, helement.yields_iff hunknown,
      helement.yields_content_iff _ _ hslot hinside]
  · intro hbuilding hvalue d
    rw [String.append_assoc, hplace.parse_iff, hplace.parse_iff]
    refine exists_congr fun r => and_congr_right fun hrun => ?_
    have hcontent := hplace.runs_ignored hrun helement.balanced hbuilding hvalue
    rw [String.toList_append, helement.yields_iff hunknown, List.append_assoc,
      Reading.yields_append_of_runs hcontent, Reading.yields_data_iff (hplace.rests hrun).1]

/-! ## Samples -/

def openHorn : String :=
  "<objects serializationModel='Studio.1.4.0'><object class='Event' id='horn'>\n"

def openHornEvents : List Event :=
  [.start (Tag.ofContent "objects serializationModel='Studio.1.4.0'".toList),
    .start (Tag.ofContent "object class='Event' id='horn'".toList)]

def closeHorn : String := "</object></objects>"

theorem inObject_openHorn : InObject openHorn openHornEvents ['\n'] where
  leads := by
    refine ⟨⟨[.tag "objects serializationModel='Studio.1.4.0'".toList,
      .tag "object class='Event' id='horn'".toList], ?_, rfl⟩, by decide⟩
    unfold openHorn
    rw [String.toList_ofList, String.toList_ofList, String.toList_ofList]
    rfl
  object := by decide +kernel
  noValue := Or.inr (by decide +kernel)

def commentTag : Tag := Tag.ofContent "comment".toList

/-- An element with an id in it that no relationship takes. -/
def comment : String := "<comment><destination>x</destination> a</comment>"

def commentContent : String := "<destination>x</destination> a"

def commentEvents : List Event :=
  [.start (Tag.ofContent "destination".toList), .text ['x'], .finish "destination".toList]

theorem isElement_comment :
    IsElement comment commentContent commentTag commentEvents " a".toList where
  whole := Or.inl ⟨⟨_, rfl, rfl⟩, by decide⟩
  content := ⟨⟨_, rfl, rfl⟩, by decide⟩
  balanced := .element _ (.text _)

def hornDocument : Document where
  model := ⟨"Studio.1.4.0", by decide⟩
  objects := [bareObject]

theorem parse_horn : parse (openHorn ++ closeHorn) = .ok hornDocument := by
  unfold parse openHorn closeHorn
  rw [String.toList_append, String.toList_ofList, String.toList_ofList]
  decide +kernel

theorem unknown_elements_pass_comment :
    InObject openHorn openHornEvents ['\n'] ∧
      IsElement comment commentContent commentTag commentEvents " a".toList ∧
      String.ofList commentTag.name ∉ knownNames ∧
      parse (openHorn ++ comment ++ closeHorn) = .ok hornDocument :=
  have hunknown : String.ofList commentTag.name ∉ knownNames := by decide +kernel
  ⟨inObject_openHorn, isElement_comment, hunknown,
    ((unknown_elements_pass inObject_openHorn isElement_comment hunknown).2 (by decide +kernel)
      (Or.inl (by decide +kernel)) _).2 parse_horn⟩

/-- An element with a property in it. -/
def filledComment : String :=
  "<comment><property name='x'><value>v</value></property></comment>"

def filledContent : String := "<property name='x'><value>v</value></property>"

def filledEvents : List Event :=
  [.start (Tag.ofContent "property name='x'".toList), .start (Tag.ofContent "value".toList),
    .text ['v'], .finish "value".toList, .finish "property".toList]

theorem unknown_content_is_read :
    InObject openHorn openHornEvents ['\n'] ∧
      IsElement filledComment filledContent commentTag filledEvents [] ∧
      String.ofList commentTag.name ∉ knownNames ∧
      parse (openHorn ++ closeHorn) = .ok hornDocument ∧
      parse (openHorn ++ filledComment ++ closeHorn) =
        .ok { hornDocument with objects := [bareObject.setProperty "x" "v"] } ∧
      hornDocument ≠ { hornDocument with objects := [bareObject.setProperty "x" "v"] } := by
  refine ⟨inObject_openHorn, ⟨Or.inl ⟨⟨_, rfl, rfl⟩, by decide⟩, ⟨⟨_, rfl, rfl⟩, by decide⟩,
    .element _ (.element _ (.text _))⟩, by decide +kernel, parse_horn, ?_, by decide +kernel⟩
  unfold parse openHorn filledComment closeHorn
  rw [String.toList_append, String.toList_append, String.toList_ofList, String.toList_ofList,
    String.toList_ofList]
  decide +kernel

end AudioProject.Document
