import AudioProject.Proofs.Document.RoundTrip
import AudioProject.Proofs.Document.Setting

/-
  Whether the objects of one document are read independently of each other. Objects in a root are
  read from the state behind its start tag (`IsRoot.parse_eq_ok_iff`), and all that objects leave
  for those behind them is a property they did not close.
  `objects_read_apart`: behind objects that leave no property open, others are read as they are
  read alone, and behind objects that leave one open, those that have a property before their
  first value; a value that comes first is given to the property that was left open.
-/

namespace AudioProject.Document

open Markup Text

/-! ## The root -/

/-- What stands in front of the content of the root and behind it: the tags of the root, and
character data outside of it. -/
structure IsRoot (head tail : String) (root : Tag) : Prop where
  name : root.name = "objects".toList
  opens : ∃ raws : List (List Char),
    Stands (withoutMark head.toList) (raws.map .text ++ [.start root])
  closes : ∃ raws raws' : List (List Char),
    eventsIn [root.name] tail.toList = raws.map .text ++ .finish root.name :: raws'.map .text

/-- The model of a root. -/
def HasModel (root : Tag) (m : Model) : Prop :=
  ∃ text, root.text? "serializationModel" = some text ∧ Model.ofString? text = .ok m

theorem HasModel.unique {root : Tag} {m m' : Model} (h : HasModel root m)
    (h' : HasModel root m') : m = m' := by
  obtain ⟨text, htext, hm⟩ := h
  obtain ⟨text', htext', hm'⟩ := h'
  cases htext.symm.trans htext'
  exact Except.ok.inj (hm.symm.trans hm')

theorem runs_texts_iff {r r' : Reading} (hslot : r.slot = .ignored) (raws : List (List Char)) :
    r.Runs (raws.map .text) r' ↔ r' = r := by
  induction raws with
  | nil => exact Iff.rfl
  | cons raw raws ih =>
    constructor
    · rintro ⟨r₁, hmove, hrun⟩
      cases hmove.symm.trans (Reading.addText_ignored hslot raw)
      exact ih.1 hrun
    · rintro rfl
      exact ⟨_, Reading.addText_ignored hslot raw, ih.2 rfl⟩

theorem atRest_inRoot (m : Model) : (inRoot m [] none).AtRest :=
  ⟨rfl, rfl, rfl, fun _ => rfl, rfl, rfl⟩

section Root

variable {head tail : String} {root : Tag}

theorem runs_closing_iff (hname : root.name = "objects".toList) {r r' : Reading}
    (hslot : r.slot = .ignored) (raws raws' : List (List Char)) :
    r.Runs (raws.map .text ++ .finish root.name :: raws'.map .text) r' ↔
      r' = { r with closedRoot := true } := by
  have hclose : r.Moves (.finish root.name) { r with closedRoot := true } :=
    Reading.Closes.root (by rw [hname, String.ofList_toList])
  constructor
  · intro h
    obtain ⟨r₁, hbefore, r₂, hfinish, hafter⟩ := Reading.runs_append_iff.1 h
    obtain rfl := (runs_texts_iff hslot raws).1 hbefore
    obtain rfl := Reading.Moves.unique hclose hfinish
    exact (runs_texts_iff (by exact hslot) raws').1 hafter
  · rintro rfl
    exact ((runs_texts_iff hslot raws).2 rfl).append
      ⟨_, hclose, (runs_texts_iff (by exact hslot) raws').2 rfl⟩

theorem runs_opening_iff (hname : root.name = "objects".toList) {r : Reading}
    (raws : List (List Char)) :
    Reading.Runs {} (raws.map .text ++ [.start root]) r ↔
      ∃ m, HasModel root m ∧ r = inRoot m [] none := by
  have hname : String.ofList root.name = "objects" := by
    rw [hname, String.ofList_toList]
  constructor
  · intro h
    obtain ⟨r₁, hbefore, r₂, hstart, rfl⟩ := Reading.runs_append_iff.1 h
    obtain rfl := (runs_texts_iff rfl raws).1 hbefore
    have hopen := Reading.Opens.openTag hstart 0
    unfold Reading.openTag at hopen
    rw [hname] at hopen
    obtain ⟨text, m, htext, hm, rfl⟩ := Reading.openRoot_eq_ok_iff.1 hopen
    exact ⟨m, ⟨text, htext, hm⟩, rfl⟩
  · rintro ⟨m, ⟨text, htext, hm⟩, rfl⟩
    exact ((runs_texts_iff rfl raws).2 rfl).append
      ⟨_, Reading.Opens.root hname htext hm, rfl⟩

/-- The events of objects in a root. -/
theorem IsRoot.events (hroot : IsRoot head tail root) {A : String} {es : List Event}
    (hA : IsObjects A es) :
    ∃ raws raws' raws'' : List (List Char),
      eventsIn [] (withoutMark (head ++ A ++ tail).toList) =
        raws.map .text ++ [.start root] ++
          (es ++ (raws'.map .text ++ .finish root.name :: raws''.map .text)) := by
  obtain ⟨raws, hhead⟩ := hroot.opens
  obtain ⟨raws', raws'', htail⟩ := hroot.closes
  have hne : head.toList ≠ [] := by
    intro hempty
    obtain ⟨xs, hcut, hevents⟩ := hhead.cut
    rw [hempty] at hcut
    cases hcut
    simp [eventsOf, eventsFrom] at hevents
  have hnest : (raws.map Event.text ++ [Event.start root]).foldl Event.nest [] = [root.name] := by
    rw [List.foldl_append, (balanced_texts raws).foldl_nest]
    rfl
  refine ⟨raws, raws', raws'', ?_⟩
  rw [String.toList_append, String.toList_append, List.append_assoc, withoutMark_append hne,
    hhead.eventsIn_append, hnest, hA.stands.eventsIn_balanced hA.objects.balanced,
    List.append_nil, htail]

/-- Objects in a root are read from the state behind its start tag. -/
theorem IsRoot.parse_eq_ok_iff (hroot : IsRoot head tail root) {A : String} {es : List Event}
    (hA : IsObjects A es) {d : Document} :
    parse (head ++ A ++ tail) = .ok d ↔
      ∃ m r, HasModel root m ∧ (inRoot m [] none).Runs es r ∧ r.model = some d.model ∧
        r.objects = d.objects := by
  obtain ⟨raws, raws', raws'', hevents⟩ := hroot.events hA
  rw [Document.parse_eq_ok_iff, hevents]
  constructor
  · rintro ⟨r₂, hrun, hcomplete⟩
    obtain ⟨r₀, hopening, hrun⟩ := Reading.runs_append_iff.1 hrun
    obtain ⟨r, hcontent, hclosing⟩ := Reading.runs_append_iff.1 hrun
    obtain ⟨m, hm, rfl⟩ := (runs_opening_iff hroot.name raws).1 hopening
    have hrest := (hcontent.rests hA.objects (atRest_inRoot m)).1
    obtain rfl := (runs_closing_iff hroot.name hrest.slot raws' raws'').1 hclosing
    exact ⟨m, r, hm, hcontent, hcomplete.model, hcomplete.objects⟩
  · rintro ⟨m, r, hm, hcontent, hmodel, hobjects⟩
    have hrest := (hcontent.rests hA.objects (atRest_inRoot m)).1
    refine ⟨{ r with closedRoot := true }, ?_, hmodel, hrest.free, rfl, hobjects⟩
    exact ((runs_opening_iff hroot.name raws).2 ⟨m, hm, rfl⟩).append
      (hcontent.append ((runs_closing_iff hroot.name hrest.slot raws' raws'').2 rfl))

/-- Two sequences of objects that are read in a row are the objects of a document. -/
theorem IsRoot.exists_append (hroot : IsRoot head tail root) {A B : String} {es fs : List Event}
    (hA : IsObjects A es) (hB : IsObjects B fs) {m : Model} (hm : HasModel root m)
    {r r' : Reading} (hfirst : (inRoot m [] none).Runs es r) (hsecond : r.Runs fs r') :
    ∃ d, parse (head ++ (A ++ B) ++ tail) = .ok d ∧ d.objects = r'.objects := by
  have hrun := hfirst.append hsecond
  obtain ⟨model, hmodel⟩ := Option.isSome_iff_exists.1 (hrun.rooted (atRest_inRoot m).rooted).2
  exact ⟨⟨model, r'.objects⟩,
    (hroot.parse_eq_ok_iff (hA.append hB)).2 ⟨m, r', hm, hrun, hmodel, rfl⟩, rfl⟩

end Root

/-! ## A value in front of every property -/

def strayValue : String := "<object class='Event' id='horn'><value>v</value></object>"

def strayValueEvents : List Event :=
  [.start (Tag.ofContent "object class='Event' id='horn'".toList),
    .start (Tag.ofContent "value".toList), .text ['v'], .finish "value".toList,
    .finish "object".toList]

theorem isObjects_strayValue : IsObjects strayValue strayValueEvents where
  stands := ⟨⟨_, rfl, rfl⟩, by decide⟩
  objects := .element rfl (.element _ (.text _))

/-- What the stray value is read as, where no property is open. -/
def bareObject : Object := { id := ⟨"horn", by decide⟩, objectClass := .event }

theorem runs_strayValue (m : Model) :
    (inRoot m [] none).Runs strayValueEvents (inRoot m [bareObject] none) := by
  have hrun : (inRoot m [] none).run (strayValueEvents.map fun e => (0, e)) =
      .ok (inRoot m [bareObject] none) := rfl
  exact Reading.run_eq_ok_iff.1 hrun

/-- Where a property is open, the stray value goes to it. -/
theorem runs_strayValue_open (m : Model) {c : Setting} {property : String}
    (h : c.property = some property) :
    ((inRoot m [] none).amid c).Runs strayValueEvents
      ((inRoot m [] none).amid
        { c with done := c.done ++ [bareObject.setProperty property "v"] }) := by
  obtain ⟨done, model, closedRoot, _⟩ := c
  cases h
  have hrun : ((inRoot m [] none).amid ⟨done, model, closedRoot, some property⟩).run
      (strayValueEvents.map fun e => (0, e)) = .ok ((inRoot m [] none).amid
        ⟨done ++ [bareObject.setProperty property "v"], model, closedRoot, some property⟩) := rfl
  exact Reading.run_eq_ok_iff.1 hrun

theorem setProperty_bareObject_ne (property : String) :
    bareObject.setProperty property "v" ≠ bareObject := by
  intro h
  have hproperties := congrArg (fun o => o.properties.toList) h
  cases hproperties

/-! ## Objects apart and together -/

/-- Two texts of objects are read together as the objects of two documents, in a row. -/
def ReadsAs (head tail A B : String) (a b : Document) : Prop :=
  ∃ d, parse (head ++ (A ++ B) ++ tail) = .ok d ∧ d.objects = a.objects ++ b.objects

section Apart

variable {head tail : String} {root : Tag} (hroot : IsRoot head tail root) {A B : String}
  {es fs : List Event} (hA : IsObjects A es) {a b : Document}
include hroot hA

/-- Objects that add the same in every setting with the property that `A` leaves open are read
behind `A` as they are read alone. -/
theorem IsRoot.readsAs (ha : parse (head ++ A ++ tail) = .ok a) (hB : IsObjects B fs)
    (hb : parse (head ++ B ++ tail) = .ok b)
    (hamid : ∀ (m : Model) (s : Reading), (inRoot m [] none).Runs fs s →
      ∃ new, s.objects = [] ++ new ∧ ∀ c : Setting, c.property = leftOpen es →
        ∃ c' : Setting, c'.done = c.done ++ new ∧
          ((inRoot m [] none).amid c).Runs fs (s.amid c')) :
    ReadsAs head tail A B a b := by
  obtain ⟨m, r, hm, hrun, -, hobjects⟩ := (hroot.parse_eq_ok_iff hA).1 ha
  obtain ⟨m', s, hm', hrunB, -, hobjectsB⟩ := (hroot.parse_eq_ok_iff hB).1 hb
  obtain rfl := hm.unique hm'
  obtain ⟨hrest, hproperty⟩ := hrun.rests hA.objects (atRest_inRoot m)
  obtain ⟨new, hnew, hamid⟩ := hamid m s hrunB
  obtain ⟨c, hdone, hrunB'⟩ := hamid r.setting hproperty
  rw [(atRest_inRoot m).amid_setting hrest] at hrunB'
  obtain ⟨d, hd, hdobjects⟩ := hroot.exists_append hA hB hm hrun hrunB'
  refine ⟨d, hd, ?_⟩
  calc d.objects = c.done := hdobjects
    _ = r.objects ++ new := hdone
    _ = a.objects ++ b.objects := by rw [hobjects, ← hobjectsB, hnew, List.nil_append]

/-- Behind objects that leave a property open, the stray value is read otherwise. -/
theorem IsRoot.not_readsAs (ha : parse (head ++ A ++ tail) = .ok a)
    (hopen : leftOpen es ≠ none) :
    ∃ b, parse (head ++ strayValue ++ tail) = .ok b ∧ ¬ ReadsAs head tail A strayValue a b := by
  obtain ⟨property, hopen⟩ := Option.ne_none_iff_exists'.1 hopen
  obtain ⟨m, r, hm, hrun, -, hobjects⟩ := (hroot.parse_eq_ok_iff hA).1 ha
  obtain ⟨hrest, hproperty⟩ := hrun.rests hA.objects (atRest_inRoot m)
  refine ⟨⟨m, [bareObject]⟩, (hroot.parse_eq_ok_iff isObjects_strayValue).2
    ⟨m, _, hm, runs_strayValue m, rfl, rfl⟩, ?_⟩
  rintro ⟨d, hd, hjoined⟩
  have hstray := runs_strayValue_open m (c := r.setting) (hproperty.trans hopen)
  rw [(atRest_inRoot m).amid_setting hrest] at hstray
  obtain ⟨d', hd', htaken⟩ := hroot.exists_append hA isObjects_strayValue hm hrun hstray
  cases hd.symm.trans hd'
  have hsame : a.objects ++ [bareObject] =
      a.objects ++ [bareObject.setProperty property "v"] := by
    rw [← hobjects]
    exact (hobjects ▸ hjoined.symm).trans htaken
  exact setProperty_bareObject_ne property
    (List.cons.inj (List.append_cancel_left hsame)).1.symm

/-- What is read behind `A` is read alike behind all objects that leave the same property open. -/
theorem IsRoot.reads_alike (ha : parse (head ++ A ++ tail) = .ok a) {A' : String}
    {es' : List Event} (hA' : IsObjects A' es') {a' : Document}
    (ha' : parse (head ++ A' ++ tail) = .ok a') (hsame : leftOpen es' = leftOpen es)
    (hB : IsObjects B fs) {d : Document} (hd : parse (head ++ (A ++ B) ++ tail) = .ok d) :
    ∃ (d' : Document) (new : List Object), parse (head ++ (A' ++ B) ++ tail) = .ok d' ∧
      d.objects = a.objects ++ new ∧ d'.objects = a'.objects ++ new := by
  obtain ⟨m, r, hm, hrun, -, hobjects⟩ := (hroot.parse_eq_ok_iff hA).1 ha
  obtain ⟨m₁, r', hm₁, hrun', -, hobjects'⟩ := (hroot.parse_eq_ok_iff hA').1 ha'
  obtain ⟨m₂, s, hm₂, hboth, -, hdobjects⟩ := (hroot.parse_eq_ok_iff (hA.append hB)).1 hd
  obtain rfl := hm.unique hm₁
  obtain rfl := hm.unique hm₂
  obtain ⟨r₁, hfirst, hsecond⟩ := Reading.runs_append_iff.1 hboth
  obtain rfl := hfirst.unique hrun
  obtain ⟨hrest, hproperty⟩ := hrun.rests hA.objects (atRest_inRoot m)
  obtain ⟨hrest', hproperty'⟩ := hrun'.rests hA'.objects (atRest_inRoot m)
  obtain ⟨new, hnew, hamid⟩ := hsecond.amid
  obtain ⟨c, hdone, hbehind, -⟩ := hamid r'.setting (hproperty'.trans (hsame.trans hproperty.symm))
  rw [hrest.amid_setting hrest'] at hbehind
  obtain ⟨d', hd', hdobjects'⟩ := hroot.exists_append hA' hB hm hrun' hbehind
  refine ⟨d', new, hd', ?_, ?_⟩
  · rw [← hdobjects, hnew, hobjects]
  · calc d'.objects = c.done := hdobjects'
      _ = r'.objects ++ new := hdone
      _ = a'.objects ++ new := by rw [hobjects']

end Apart

/-- Objects are read as if they stood alone behind every object but those that leave a property
open. Such objects give it to a value that comes before any property, and change nothing else.
In the first part every other sequence of objects is read behind `A` as it is read alone, exactly
if `A` leaves no property open. In the second, one that has a property before its first value is
so read behind any `A`. In the third, what is read behind `A` is read alike behind all objects
that leave the same property open. -/
theorem objects_read_apart {head tail : String} {root : Tag} (hroot : IsRoot head tail root)
    {A : String} {es : List Event} (hA : IsObjects A es) {a : Document}
    (ha : parse (head ++ A ++ tail) = .ok a) :
    ((∀ {B : String} {fs : List Event} {b : Document}, IsObjects B fs →
        parse (head ++ B ++ tail) = .ok b → ReadsAs head tail A B a b) ↔ leftOpen es = none) ∧
      (∀ {B : String} {fs : List Event} {b : Document}, IsObjects B fs →
        parse (head ++ B ++ tail) = .ok b → PropertyFirst fs → ReadsAs head tail A B a b) ∧
      ∀ {A' : String} {es' : List Event} {a' : Document}, IsObjects A' es' →
        parse (head ++ A' ++ tail) = .ok a' → leftOpen es' = leftOpen es →
        ∀ {B : String} {fs : List Event} {d : Document}, IsObjects B fs →
          parse (head ++ (A ++ B) ++ tail) = .ok d →
          ∃ (d' : Document) (new : List Object), parse (head ++ (A' ++ B) ++ tail) = .ok d' ∧
            d.objects = a.objects ++ new ∧ d'.objects = a'.objects ++ new := by
  refine ⟨⟨?_, ?_⟩, ?_, ?_⟩
  · intro hreads
    by_contra hopen
    obtain ⟨b, hb, hother⟩ := hroot.not_readsAs hA ha hopen
    exact hother (hreads isObjects_strayValue hb)
  · intro hclosed B fs b hB hb
    refine hroot.readsAs hA ha hB hb fun m s hrun => ?_
    obtain ⟨new, hnew, hamid⟩ := hrun.amid
    refine ⟨new, hnew, fun c hc => ?_⟩
    obtain ⟨c', hdone, hrun', -⟩ := hamid c (hc.trans hclosed)
    exact ⟨c', hdone, hrun'⟩
  · intro B fs b hB hb hfirst
    refine hroot.readsAs hA ha hB hb fun m s hrun => ?_
    obtain ⟨new, hnew, hamid⟩ := hrun.amid_objects hB.objects (atRest_inRoot m) hfirst
    refine ⟨new, hnew, fun c _ => ?_⟩
    obtain ⟨c', hdone, hrun', -⟩ := hamid c
    exact ⟨c', hdone, hrun'⟩
  · intro A' es' a' hA' ha' hsame B fs d hB hd
    exact hroot.reads_alike hA ha hA' ha' hsame hB hd

/-! ## Samples -/

def plainHead : String := "<objects serializationModel='Studio.1.0.0'>"

def plainTail : String := "</objects>\n"

def plainRoot : Tag := Tag.ofContent "objects serializationModel='Studio.1.0.0'".toList

theorem isRoot_plain : IsRoot plainHead plainTail plainRoot where
  name := rfl
  opens := ⟨[], ⟨_, rfl, rfl⟩, by decide⟩
  closes := ⟨[], [['\n']], rfl⟩

theorem hasModel_plain : HasModel plainRoot ⟨"Studio.1.0.0", by decide⟩ :=
  ⟨"Studio.1.0.0", by decide, by decide⟩

/-- An empty property, and one behind it that is closed. -/
def crowded : String :=
  "<object class='Event' id='flute'><property name='x'/>" ++
    "<property name='y'><value>v</value></property></object>"

def crowdedEvents : List Event :=
  [.start (Tag.ofContent "object class='Event' id='flute'".toList),
    .empty (Tag.ofContent "property name='x'".toList),
    .start (Tag.ofContent "property name='y'".toList), .start (Tag.ofContent "value".toList),
    .text ['v'], .finish "value".toList, .finish "property".toList, .finish "object".toList]

theorem isObjects_crowded : IsObjects crowded crowdedEvents where
  stands := ⟨⟨_, rfl, rfl⟩, by decide⟩
  objects := .element rfl (.append (.empty _) (.element _ (.element _ (.text _))))

def crowdedDocument : Document where
  model := ⟨"Studio.1.0.0", by decide⟩
  objects :=
    [{ id := ⟨"flute", by decide⟩
       objectClass := .event
       properties := ⟨[("y", "v")], by decide⟩ }]

theorem parse_crowded : parse (plainHead ++ crowded ++ plainTail) = .ok crowdedDocument := by
  have hrun : (inRoot ⟨"Studio.1.0.0", by decide⟩ [] none).run
      (crowdedEvents.map fun e => (0, e)) =
        .ok (inRoot ⟨"Studio.1.0.0", by decide⟩ crowdedDocument.objects none) := by
    decide
  exact (isRoot_plain.parse_eq_ok_iff isObjects_crowded).2
    ⟨_, _, hasModel_plain, Reading.run_eq_ok_iff.1 hrun, rfl, rfl⟩

theorem parse_strayValue : parse (plainHead ++ strayValue ++ plainTail) =
    .ok ⟨⟨"Studio.1.0.0", by decide⟩, [bareObject]⟩ :=
  (isRoot_plain.parse_eq_ok_iff isObjects_strayValue).2
    ⟨_, _, hasModel_plain, runs_strayValue _, rfl, rfl⟩

theorem objects_read_apart_crowded :
    IsRoot plainHead plainTail plainRoot ∧ IsObjects crowded crowdedEvents ∧
      parse (plainHead ++ crowded ++ plainTail) = .ok crowdedDocument ∧
      leftOpen crowdedEvents = none ∧ IsObjects strayValue strayValueEvents ∧
      parse (plainHead ++ strayValue ++ plainTail) =
        .ok ⟨⟨"Studio.1.0.0", by decide⟩, [bareObject]⟩ ∧
      ReadsAs plainHead plainTail crowded strayValue crowdedDocument
        ⟨⟨"Studio.1.0.0", by decide⟩, [bareObject]⟩ := by
  have hclosed : leftOpen crowdedEvents = none := by decide +kernel
  exact ⟨isRoot_plain, isObjects_crowded, parse_crowded, hclosed, isObjects_strayValue,
    parse_strayValue, (objects_read_apart isRoot_plain isObjects_crowded parse_crowded).1.2
      hclosed isObjects_strayValue parse_strayValue⟩

/-- An object that leaves a property open. -/
def heldOpen : String := "<object class='Event' id='flute'><property name='x'/></object>"

def heldOpenEvents : List Event :=
  [.start (Tag.ofContent "object class='Event' id='flute'".toList),
    .empty (Tag.ofContent "property name='x'".toList), .finish "object".toList]

theorem isObjects_heldOpen : IsObjects heldOpen heldOpenEvents where
  stands := ⟨⟨_, rfl, rfl⟩, by decide⟩
  objects := .element rfl (.empty _)

def heldObject : Object := { id := ⟨"flute", by decide⟩, objectClass := .event }

theorem property_reaches_next_object :
    IsRoot plainHead plainTail plainRoot ∧ IsObjects heldOpen heldOpenEvents ∧
      IsObjects strayValue strayValueEvents ∧
      parse (plainHead ++ heldOpen ++ plainTail) =
        .ok ⟨⟨"Studio.1.0.0", by decide⟩, [heldObject]⟩ ∧
      parse (plainHead ++ strayValue ++ plainTail) =
        .ok ⟨⟨"Studio.1.0.0", by decide⟩, [bareObject]⟩ ∧
      parse (plainHead ++ (heldOpen ++ strayValue) ++ plainTail) =
        .ok ⟨⟨"Studio.1.0.0", by decide⟩, [heldObject, bareObject.setProperty "x" "v"]⟩ ∧
      [heldObject, bareObject.setProperty "x" "v"] ≠ [heldObject] ++ [bareObject] := by
  have hheld : (inRoot ⟨"Studio.1.0.0", by decide⟩ [] none).run
      (heldOpenEvents.map fun e => (0, e)) =
        .ok { inRoot ⟨"Studio.1.0.0", by decide⟩ [heldObject] none with property := some "x" } := by
    decide +kernel
  have hboth : (inRoot ⟨"Studio.1.0.0", by decide⟩ [] none).run
      ((heldOpenEvents ++ strayValueEvents).map fun e => (0, e)) =
        .ok { inRoot ⟨"Studio.1.0.0", by decide⟩
          [heldObject, bareObject.setProperty "x" "v"] none with property := some "x" } := by
    decide +kernel
  refine ⟨isRoot_plain, isObjects_heldOpen, isObjects_strayValue, ?_, parse_strayValue, ?_, ?_⟩
  · exact (isRoot_plain.parse_eq_ok_iff isObjects_heldOpen).2
      ⟨_, _, hasModel_plain, Reading.run_eq_ok_iff.1 hheld, rfl, rfl⟩
  · exact (isRoot_plain.parse_eq_ok_iff (isObjects_heldOpen.append isObjects_strayValue)).2
      ⟨_, _, hasModel_plain, Reading.run_eq_ok_iff.1 hboth, rfl, rfl⟩
  · decide +kernel

end AudioProject.Document
