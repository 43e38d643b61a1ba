import AudioProject.Proofs.Document.Unknown

/-
  An empty element and the same element as a start tag and an end tag. What the first does in a
  state the two tags do as well, with exceptions: an empty destination is passed over, while in an
  open relationship (`LeavesRelationship`) the id between two tags is refused if there is none, and
  an empty property is not closed (`Opens.pair`). A value, a relationship or a destination inside
  another one also ends that one if it has an end tag. A property that was not closed makes no
  difference if no value comes before another property or the end tag of one (`Runs.hold`).
-/

namespace AudioProject.Document

open Markup Text

/-! ## The two forms -/

def emptyForm (inside : String) : String := "<" ++ inside ++ "/>"

def pairForm (inside closing : String) : String := "<" ++ inside ++ "></" ++ closing ++ ">"

/-- The tag that a text between angles is. -/
def tagOf (inside : String) : Tag := Tag.ofContent inside.toList

/-- A text is the inside of a tag, which would not be empty without a slash behind it, and
another one is the inside of an end tag for it. -/
structure TwoForms (inside closing : String) : Prop where
  cut : Mode.angle.cut inside.toList = some ([], .tag none inside.toList.reverse)
  full : inside.toList.getLast? ≠ some '/'
  ended : '>' ∉ closing.toList
  named : closingName closing.toList = (tagOf inside).name

theorem cut_close (acc : List Char) {cs : List Char} (h : '>' ∉ cs) :
    (Mode.close acc).cut (cs ++ ['>']) = some ([.close (acc.reverse ++ cs)], .data []) := by
  induction cs generalizing acc with
  | nil =>
    rw [List.nil_append, List.append_nil]
    rfl
  | cons c cs ih =>
    rw [List.mem_cons, not_or] at h
    have hmove : (Mode.close acc).move c = .stay (.close (c :: acc)) := by
      simp [Mode.move, Ne.symm h.1]
    rw [List.cons_append, Mode.cut, hmove]
    simpa using ih (c :: acc) h.2

section Forms

variable {inside closing : String}

theorem TwoForms.stands_empty (h : TwoForms inside closing) :
    Stands (emptyForm inside).toList [.empty (tagOf inside)] where
  cut := by
    refine ⟨[.tag (inside.toList ++ ['/'])], ?_, ?_⟩
    · have hopen : (Mode.data []).cut ('<' :: (inside.toList ++ ['/', '>'])) =
          Mode.angle.cut (inside.toList ++ ['/', '>']) := rfl
      have hclose : (Mode.tag none inside.toList.reverse).cut ['/', '>'] =
          some ([.tag ('/' :: inside.toList.reverse).reverse], .data []) := rfl
      have htext : (emptyForm inside).toList = '<' :: (inside.toList ++ ['/', '>']) := by
        simp [emptyForm]
      rw [htext, hopen, Mode.cut_append h.cut, hclose]
      simp
    · rw [eventsOf_empty (by simp), List.dropLast_concat]
      rfl
  sound := by simp [Event.isFault]

theorem TwoForms.stands_pair (h : TwoForms inside closing) :
    Stands (pairForm inside closing).toList
      [.start (tagOf inside), .finish (tagOf inside).name] where
  cut := by
    refine ⟨[.tag inside.toList, .close closing.toList], ?_, ?_⟩
    · have hopen : ∀ cs, (Mode.data []).cut ('<' :: cs) = Mode.angle.cut cs := fun _ => rfl
      have hfull : (Mode.tag none inside.toList.reverse).cut ['>'] =
          some ([.tag inside.toList.reverse.reverse], .data []) := rfl
      have hslash : ∀ cs, Mode.angle.cut ('/' :: cs) = (Mode.close []).cut cs := fun _ => rfl
      have htext : (pairForm inside closing).toList =
          '<' :: (inside.toList ++ (['>'] ++ '<' :: '/' :: (closing.toList ++ ['>']))) := by
        simp [pairForm]
      rw [htext, hopen, Mode.cut_append h.cut, Mode.cut_append hfull, hopen, hslash,
        cut_close [] h.ended]
      simp
    · have hfinish : eventsOf [(tagOf inside).name] [.close closing.toList] =
          [.finish (tagOf inside).name] := eventsOf_finish h.named [] []
      rw [eventsOf_start h.full]
      exact congrArg (_ :: ·) hfinish
  sound := by simp [Event.isFault]

end Forms

namespace Reading

/-! ## In a state -/

/-- The state with another property open, or none. -/
def hold (r : Reading) (property : Option String) : Reading := { r with property := property }

/-- The two forms do the same in this state, but for what they leave of a property. -/
structure Agrees (r : Reading) (name : String) : Prop where
  value : name = "value" → r.slot = .ignored ∧ r.text = []
  relationship : name = "relationship" → r.relationship = none
  destination : name = "destination" → r.relationship = none ∧ r.slot ≠ .destination

/-- The state behind an end tag, where an empty element left another. -/
def closed (r : Reading) (name : String) : Reading :=
  if name = "property" then r.hold none else r

theorem Opens.pair {r r' : Reading} {tag : Tag} (h : Opens r tag true r')
    (hr : r.Agrees (String.ofList tag.name)) :
    ∃ r₁, Opens r tag false r₁ ∧ Closes r₁ tag.name (r'.closed (String.ofList tag.name)) := by
  unfold closed
  cases h with
  | object name inside free hclass hid valid full => cases full
  | relationship name inside given full => cases full
  | value name inside full => cases full
  | destination name inside full => cases full
  | root name given valid =>
    rw [if_neg (by simp [name])]
    exact ⟨_, .root name given valid, .root name⟩
  | emptyObject name inside free hclass hid valid bare =>
    rw [if_neg (by simp [name])]
    have hfree : ∀ o, { r with objects := r.objects ++ [o] } =
        { r with objects := r.objects ++ [o], current := none } := by
      intro o
      rw [← free]
    rw [hfree]
    exact ⟨_, .object name inside free hclass hid valid rfl, .object name rfl⟩
  | property name inside given =>
    rw [if_pos name]
    exact ⟨_, .property name inside given, .property name⟩
  | emptyRelationship name inside given bare =>
    rw [if_neg (by simp [name])]
    have hfree : ∀ o, { r with current := o } =
        { r with current := o, relationship := none } := by
      intro o
      rw [← hr.relationship name]
    rw [hfree]
    exact ⟨_, .relationship name inside given rfl, .relationship name⟩
  | emptyValue name inside bare =>
    rw [if_neg (by simp [name])]
    refine ⟨_, .value name inside rfl, ?_⟩
    have hsame : (r.collect .value).endValue = r.endValue := by
      rw [endValue_eq, endValue_eq]
      simp [collect, (hr.value name).2]
    rw [← hsame]
    exact .value name rfl
  | passed hpasses =>
    have hopen : Opens r tag false r := .passed { hpasses with
      destination := fun name => Or.inl (hr.destination name).1 }
    refine ⟨r, hopen, ?_⟩
    split
    · next name => exact .property name
    · next notProperty =>
      exact .passed hpasses.notRoot notProperty hpasses.notRelationship hpasses.notObject
        (fun name => by simp [(hr.value name).1]) fun name => (hr.destination name).2

theorem Opens.exists_empty {r r₁ : Reading} {tag : Tag} (h : Opens r tag false r₁) :
    ∃ r', Opens r tag true r' := by
  cases h with
  | emptyObject _ _ _ _ _ _ bare | emptyRelationship _ _ _ bare | emptyValue _ _ bare =>
    cases bare
  | root name given valid => exact ⟨_, .root name given valid⟩
  | object name inside free hclass hid valid =>
    exact ⟨_, .emptyObject name inside free hclass hid valid rfl⟩
  | property name inside given => exact ⟨_, .property name inside given⟩
  | relationship name inside given => exact ⟨_, .emptyRelationship name inside given rfl⟩
  | value name inside => exact ⟨_, .emptyValue name inside rfl⟩
  | destination name =>
    exact ⟨r, .passed ⟨by simp [name], by simp [name], by simp [name], by simp [name],
      by simp [name], fun _ => Or.inr rfl⟩⟩
  | passed hpasses =>
    exact ⟨r, .passed { hpasses with destination := fun _ => Or.inr rfl }⟩

/-- Start tag and end tag in a row, by what the empty element does. -/
theorem yields_pair_iff {r : Reading} {tag : Tag} (hr : r.Agrees (String.ofList tag.name))
    (es : List Event) (d : Document) :
    r.Yields (.start tag :: .finish tag.name :: es) d ↔
      ∃ r', Opens r tag true r' ∧ (r'.closed (String.ofList tag.name)).Yields es d := by
  simp only [yields_cons_iff]
  constructor
  · rintro ⟨r₁, hstart, r₂, hfinish, hrest⟩
    obtain ⟨r', hempty⟩ := Opens.exists_empty hstart
    obtain ⟨r₁', hstart', hfinish'⟩ := hempty.pair hr
    obtain rfl := Moves.unique (e := .start tag) hstart hstart'
    obtain rfl := Moves.unique (e := .finish tag.name) hfinish hfinish'
    exact ⟨r', hempty, hrest⟩
  · rintro ⟨r', hempty, hrest⟩
    obtain ⟨r₁, hstart, hfinish⟩ := hempty.pair hr
    exact ⟨r₁, hstart, _, hfinish, hrest⟩

/-! ## With another property -/

theorem Opens.hold {r r' : Reading} {tag : Tag} {empty : Bool} (h : Opens r tag empty r')
    (hvalue : String.ofList tag.name ≠ "value") (property : Option String) :
    ∃ property', Opens (r.hold property) tag empty (r'.hold property') ∧
      (String.ofList tag.name = "property" → r.current.isSome = true →
        property' = r'.property) := by
  cases h with
  | root name given valid => exact ⟨property, .root name given valid, by simp [name]⟩
  | object name inside free hclass hid valid full =>
    exact ⟨property, .object name inside free hclass hid valid full, by simp [name]⟩
  | emptyObject name inside free hclass hid valid bare =>
    exact ⟨property, .emptyObject name inside free hclass hid valid bare, by simp [name]⟩
  | @property label o name inside given =>
    exact ⟨some label, .property name inside given, fun _ _ => rfl⟩
  | relationship name inside given full =>
    exact ⟨property, .relationship name inside given full, by simp [name]⟩
  | emptyRelationship name inside given bare =>
    exact ⟨property, .emptyRelationship name inside given bare, by simp [name]⟩
  | value name => exact absurd name hvalue
  | emptyValue name => exact absurd name hvalue
  | destination name inside full =>
    exact ⟨property, .destination name inside full, by simp [name]⟩
  | passed hpasses =>
    refine ⟨property, .passed ⟨hpasses.notRoot, hpasses.notObject, hpasses.notRelationship,
      hpasses.property, fun name => absurd name hvalue, hpasses.destination⟩, ?_⟩
    intro name hinside
    simp [hpasses.property name] at hinside

theorem Closes.hold {r r' : Reading} {name : List Char} (h : Closes r name r')
    (hvalue : String.ofList name ≠ "value") (property : Option String) :
    ∃ property', Closes (r.hold property) name (r'.hold property') ∧
      (String.ofList name = "property" → property' = r'.property) := by
  cases h with
  | value named => exact absurd named hvalue
  | destination named filled valid =>
    exact ⟨property, .destination named filled valid, by simp [named]⟩
  | root named => exact ⟨property, .root named, by simp [named]⟩
  | property named => exact ⟨none, .property named, fun _ => rfl⟩
  | relationship named => exact ⟨property, .relationship named, by simp [named]⟩
  | object named inside => exact ⟨property, .object named inside, by simp [named]⟩
  | passed notRoot notProperty notRelationship notObject value destination =>
    exact ⟨property, .passed notRoot notProperty notRelationship notObject value destination,
      fun named => absurd named notProperty⟩

/-- An event does the same with another property open, if it does not end a value. -/
theorem Moves.hold {r r' : Reading} {e : Event} (h : r.Moves e r')
    (hvalue : e.isTag "value" = false) (hends : e.ends "value" = false)
    (property : Option String) :
    ∃ property', (r.hold property).Moves e (r'.hold property') ∧
      (e.ends "property" = true ∨ r.current.isSome = true ∧ e.isTag "property" = true →
        property' = r'.property) := by
  cases e with
  | start tag =>
    obtain ⟨property', hopen, hsame⟩ := Opens.hold h (of_decide_eq_false hvalue) property
    exact ⟨property', hopen, fun hsettled => by
      simp only [Event.ends, Event.isTag, Bool.false_eq_true, false_or] at hsettled
      exact hsame (of_decide_eq_true hsettled.2) hsettled.1⟩
  | empty tag =>
    obtain ⟨property', hopen, hsame⟩ := Opens.hold h (of_decide_eq_false hvalue) property
    exact ⟨property', hopen, fun hsettled => by
      simp only [Event.ends, Event.isTag, Bool.false_eq_true, false_or] at hsettled
      exact hsame (of_decide_eq_true hsettled.2) hsettled.1⟩
  | finish name =>
    obtain ⟨property', hclose, hsame⟩ := Closes.hold h (of_decide_eq_false hends) property
    exact ⟨property', hclose, fun hsettled => by
      simp only [Event.ends, Event.isTag, Bool.false_eq_true, and_false, or_false] at hsettled
      exact hsame (of_decide_eq_true hsettled)⟩
  | text raw =>
    obtain ⟨cs, rfl, -⟩ := exists_of_addText h
    exact ⟨property, addText_amid h { r.setting with property := property },
      by simp [Event.ends, Event.isTag]⟩
  | cdata content =>
    have hadd := addLiteral_amid r content { r.setting with property := property }
    obtain ⟨cs, hliteral, -⟩ := exists_of_addLiteral r content
    rw [hliteral] at hadd
    cases h.trans hliteral
    exact ⟨property, hadd, by simp [Event.ends, Event.isTag]⟩
  | fault e => exact h.elim

end Reading

/-- Whether the last tag with a name, behind an event, is a start tag. Empty elements do not
count. -/
def openAfter (name : String) (opened : Bool) : Event → Bool
  | .start tag => opened || decide (String.ofList tag.name = name)
  | .finish closed => opened && decide (String.ofList closed ≠ name)
  | _ => opened

/-- Whether a tag for a value comes before the next property that an object has, and before the
next end tag of a property. -/
def valueNext (inside : Bool) : List Event → Bool
  | [] => false
  | e :: es =>
    if e.isTag "value" || e.ends "value" then true
    else if e.ends "property" || inside && e.isTag "property" then false
    else valueNext (openAfter "object" inside e) es

namespace Reading

theorem Moves.isSome_current {r r' : Reading} {e : Event} (h : r.Moves e r') :
    r'.current.isSome = openAfter "object" r.current.isSome e := by
  cases e with
  | start tag =>
    cases h with
    | object name => simp [openAfter, name]
    | emptyObject _ _ _ _ _ _ bare | emptyRelationship _ _ _ bare | emptyValue _ _ bare =>
      cases bare
    | relationship name inside => simp [openAfter, inside]
    | root name | property name => simp [openAfter, name]
    | value name | destination name => simp [openAfter, name, collect]
    | passed hpasses => simp [openAfter, hpasses.notObject]
  | empty tag =>
    cases h with
    | object _ _ _ _ _ _ full | relationship _ _ _ full => cases full
    | emptyRelationship name inside => simp [openAfter, inside]
    | emptyValue => exact isSome_endValue r
    | _ => rfl
  | finish name =>
    cases h with
    | value named => simp [openAfter, named, isSome_endValue]
    | destination named => simp [openAfter, named, isSome_take]
    | object named => simp [openAfter, named]
    | root named | property named | relationship named => simp [openAfter, named]
    | passed _ _ _ notObject => simp [openAfter, notObject]
  | text | cdata =>
    obtain ⟨cs, rfl, -⟩ := h.of_data rfl
    rfl
  | fault e => exact h.elim

/-- A relationship is open from its start tag on, to the next end tag of one. -/
theorem Moves.isSome_relationship {r r' : Reading} {e : Event} (h : r.Moves e r') :
    r'.relationship.isSome = openAfter "relationship" r.relationship.isSome e := by
  cases e with
  | start tag =>
    cases h with
    | relationship name => simp [openAfter, name]
    | emptyObject _ _ _ _ _ _ bare | emptyRelationship _ _ _ bare | emptyValue _ _ bare =>
      cases bare
    | root name | object name | property name => simp [openAfter, name]
    | value name | destination name => simp [openAfter, name, collect]
    | passed hpasses => simp [openAfter, hpasses.notRelationship]
  | empty tag =>
    cases h with
    | object _ _ _ _ _ _ full | relationship _ _ _ full => cases full
    | emptyValue =>
      rw [endValue_eq]
      rfl
    | _ => rfl
  | finish name =>
    cases h with
    | value named => simp [openAfter, named, endValue_eq]
    | destination named => simp [openAfter, named, take]
    | relationship named => simp [openAfter, named]
    | root named | property named | object named => simp [openAfter, named]
    | passed _ _ notRelationship => simp [openAfter, notRelationship]
  | text | cdata =>
    obtain ⟨cs, rfl, -⟩ := h.of_data rfl
    rfl
  | fault e => exact h.elim

theorem Runs.isSome_relationship {r r' : Reading} {es : List Event} (h : r.Runs es r') :
    r'.relationship.isSome = es.foldl (openAfter "relationship") r.relationship.isSome := by
  induction es generalizing r with
  | nil =>
    cases h
    rfl
  | cons e es ih =>
    obtain ⟨r₁, hmove, hrun⟩ := h
    rw [List.foldl_cons, ← hmove.isSome_relationship]
    exact ih hrun

/-- There is no way past a fault. -/
theorem Runs.sound {r r' : Reading} {es : List Event} (h : r.Runs es r') :
    ∀ e ∈ es, e.isFault = false := by
  induction es generalizing r with
  | nil => simp
  | cons e es ih =>
    obtain ⟨r₁, hmove, hrun⟩ := h
    refine List.forall_mem_cons.2 ⟨?_, ih hrun⟩
    cases e with
    | fault f => exact hmove.elim
    | _ => rfl

/-- Events do the same with another property open, if no value is next. -/
theorem Runs.hold {r r' : Reading} {es : List Event} (h : r.Runs es r')
    (hnext : valueNext r.current.isSome es = false) (property : Option String) :
    ∃ property', (r.hold property).Runs es (r'.hold property') := by
  induction es generalizing r property with
  | nil =>
    cases h
    exact ⟨property, rfl⟩
  | cons e es ih =>
    obtain ⟨r₁, hmove, hrun⟩ := h
    rw [valueNext] at hnext
    split at hnext
    · cases hnext
    next hother =>
    rw [Bool.or_eq_true, not_or, Bool.not_eq_true, Bool.not_eq_true] at hother
    obtain ⟨property₁, hmove', hsettled⟩ := hmove.hold hother.1 hother.2 property
    split at hnext
    · next hsettles =>
      -- from here on the same property is open
      have hsame : property₁ = r₁.property := hsettled (by simpa using hsettles)
      rw [hsame] at hmove'
      exact ⟨r'.property, r₁, hmove', hrun⟩
    · rw [← hmove.isSome_current] at hnext
      obtain ⟨property', hrun'⟩ := ih hrun hnext property₁
      exact ⟨property', _, hmove', hrun'⟩

/-- A text ends with the same document with another property open, if no value is next. -/
theorem yields_hold_iff {r : Reading} {es : List Event}
    (hnext : valueNext r.current.isSome es = false) (property : Option String) (d : Document) :
    (r.hold property).Yields es d ↔ r.Yields es d := by
  have hcompletes : ∀ {r' : Reading} {p : Option String}, r'.Completes d →
      (r'.hold p).Completes d := fun h => ⟨h.model, h.closed, h.closedRoot, h.objects⟩
  constructor
  · rintro ⟨r', hrun, hd⟩
    obtain ⟨p, hrun'⟩ := hrun.hold hnext r.property
    exact ⟨_, hrun', hcompletes hd⟩
  · rintro ⟨r', hrun, hd⟩
    obtain ⟨p, hrun'⟩ := hrun.hold hnext property
    exact ⟨_, hrun', hcompletes hd⟩

end Reading

/-! ## In a text -/

def nameOf (inside : String) : String := String.ofList (tagOf inside).name

/-- The names of the elements that are open at the end of a text, innermost first. -/
def around (head : String) : List String := openIn (stream head)

/-- The events of a text behind another. -/
def behind (head tail : String) : List Event :=
  eventsIn ((stream head).foldl Event.nest []) tail.toList

/-- With one form of an element a text is read as the document it is read as with another, or as
none in both cases. -/
def ReadAlike (head form form' tail : String) : Prop :=
  ∀ d, parse (head ++ form ++ tail) = .ok d ↔ parse (head ++ form' ++ tail) = .ok d

/-- The place of an element lets both its forms do the same. -/
structure Interchangeable (name : String) (around : List String) (behind : List Event) :
    Prop where
  value : name = "value" → "value" ∉ around ∧ "destination" ∉ around
  relationship : name = "relationship" → "relationship" ∉ around
  destination : name = "destination" → "relationship" ∉ around
  property : name = "property" → valueNext (decide ("object" ∈ around)) behind = false

theorem withoutMark_append_tag (cs ds : List Char) :
    withoutMark (cs ++ '<' :: ds) = withoutMark cs ++ '<' :: ds := by
  cases cs with
  | nil => rfl
  | cons c cs => exact withoutMark_append (by simp) _

/-- Texts with the same events are read alike. -/
theorem parse_congr {s t : String} (h : stream s = stream t) (d : Document) :
    parse s = .ok d ↔ parse t = .ok d := by
  rw [parse_iff_yields, parse_iff_yields, h]

/-- Behind character data, the events of text that begins with a tag; where there is a fault in
front, none. -/
theorem stream_append_tag {head : String} (hplace : EndsInData (withoutMark head.toList)) :
    (∀ {text : String} {es : List Event} (tail : String), text.toList.head? = some '<' →
      Stands text.toList es → Balanced es →
      stream (head ++ text ++ tail) = stream head ++ (es ++ behind head tail)) ∨
      (∃ e ∈ stream head, e.isFault = true) ∧
        ∀ {text : String} (tail : String), text.toList.head? = some '<' →
          stream (head ++ text ++ tail) = stream head := by
  have hstream : ∀ {text : String} (tail : String), text.toList.head? = some '<' →
      ∃ ds, text.toList ++ tail.toList = '<' :: ds ∧
        stream (head ++ text ++ tail) = eventsIn [] (withoutMark head.toList ++ '<' :: ds) := by
    intro text tail htext
    obtain ⟨cs, hcs⟩ := List.head?_eq_some_iff.1 htext
    refine ⟨cs ++ tail.toList, by simp [hcs], ?_⟩
    rw [stream, ← withoutMark_append_tag]
    simp [hcs]
  rcases hplace.leads_or_fault with ⟨es, raw, hleads⟩ | ⟨hfault, hends⟩
  · refine Or.inl fun {text fs} tail htext hstands hfs => ?_
    obtain ⟨ds, hds, htextual⟩ := hstream tail htext
    rw [htextual, hleads.eventsIn_tag, ← hds, hstands.eventsIn_balanced hfs]
    rfl
  · refine Or.inr ⟨hfault, fun {text} tail htext => ?_⟩
    obtain ⟨ds, -, htextual⟩ := hstream tail htext
    rw [htextual, hends]
    rfl

/-- A text that can be read to its end, where a relationship is open: of the start tags and end tags
of relationships in it, the last is a start tag. -/
structure LeavesRelationship (head : String) : Prop where
  readable : ∃ r, Reading.Runs {} (stream head) r
  opened : (stream head).foldl (openAfter "relationship") false = true

theorem leavesRelationship_iff {head : String} : LeavesRelationship head ↔
    ∃ r label, Reading.Runs {} (stream head) r ∧ r.relationship = some label := by
  constructor
  · rintro ⟨⟨r, hrun⟩, hopen⟩
    obtain ⟨label, hlabel⟩ := Option.isSome_iff_exists.1 (hrun.isSome_relationship.trans hopen)
    exact ⟨r, label, hrun, hlabel⟩
  · rintro ⟨r, label, hrun, hlabel⟩
    refine ⟨⟨r, hrun⟩, hrun.isSome_relationship.symm.trans ?_⟩
    rw [hlabel]
    rfl

section Forms

variable {head inside closing tail : String}

theorem Interchangeable.agrees {name : String} {events : List Event}
    (h : Interchangeable name (around head) events) {r : Reading}
    (hrun : Reading.Runs {} (stream head) r) :
    r.Agrees name ∧ (name = "property" → valueNext r.current.isSome events = false) := by
  have hwithin := hrun.within_openIn (nests_eventsIn [] _)
  have hrelationship : "relationship" ∉ around head → r.relationship = none := by
    intro hfree
    by_contra hsome
    exact hfree (hwithin.relationship (Option.isSome_iff_ne_none.2 hsome)).mem_inner
  refine ⟨⟨fun name => ?_, fun name => hrelationship (h.relationship name), fun name => ?_⟩,
    fun name => ?_⟩
  · obtain ⟨hvalue, hdestination⟩ := h.value name
    have hslot : r.slot = .ignored := by
      cases hslot : r.slot with
      | ignored => rfl
      | value => exact absurd (hwithin.value hslot) hvalue
      | destination => exact absurd (hwithin.destination hslot).1.mem_inner hdestination
    exact ⟨hslot, hrun.tidy (fun _ => rfl) hslot⟩
  · exact ⟨hrelationship (h.destination name), fun hslot =>
      h.destination name (hwithin.destination hslot).2.mem_outer⟩
  · have hinside : r.current.isSome = decide ("object" ∈ around head) := by
      rw [Bool.eq_iff_iff, decide_eq_true_iff]
      exact ⟨hwithin.object_mem, hwithin.isSome_current⟩
    rw [hinside]
    exact h.property name

/-- A text is read alike with both forms, if they do the same in the state in front. -/
theorem parse_forms_iff {front rest : List Event} {s t : String} {tag : Tag}
    (hempty : stream s = front ++ (.empty tag :: rest))
    (hpair : stream t = front ++ (.start tag :: .finish tag.name :: rest))
    (hagrees : ∀ r, Reading.Runs {} front r → r.Agrees (String.ofList tag.name) ∧
      (String.ofList tag.name = "property" → valueNext r.current.isSome rest = false))
    (d : Document) : parse s = .ok d ↔ parse t = .ok d := by
  rw [parse_iff_yields, hempty, Reading.yields_append_iff, parse_iff_yields, hpair,
    Reading.yields_append_iff]
  refine exists_congr fun r => and_congr_right fun hfront => ?_
  obtain ⟨hstate, hnext⟩ := hagrees r hfront
  rw [Reading.yields_cons_iff, Reading.yields_pair_iff hstate]
  refine exists_congr fun r' => and_congr_right fun hopen => ?_
  unfold Reading.closed
  split
  · next hname =>
    have hinside : r'.current.isSome = r.current.isSome :=
      Reading.Moves.isSome_current (e := .empty tag) hopen
    exact (Reading.yields_hold_iff (by rw [hinside]; exact hnext hname) none d).symm
  · exact Iff.rfl

/-- Where a relationship is open, a destination without an id between its tags is an error. -/
theorem parse_emptyId {front rest : List Event} {s : String} {tag : Tag}
    (hname : String.ofList tag.name = "destination")
    (hstream : stream s = front ++ (.start tag :: .finish tag.name :: rest)) {r : Reading}
    (hfront : Reading.Runs {} front r) {label : String} (hopen : r.relationship = some label) :
    parse s = .error (.invalidValue .emptyId) := by
  have hevents : unplaced (events s.toList) = front ++ (.start tag :: .finish tag.name :: rest) :=
    (unplaced_events _).trans hstream
  obtain ⟨before, after, heq, hbefore, hafter⟩ := List.map_eq_append_iff.1 hevents
  obtain ⟨⟨p, e⟩, after, rfl, he, hafter⟩ := List.map_eq_cons_iff.1 hafter
  obtain ⟨⟨q, f⟩, after, rfl, hf, -⟩ := List.map_eq_cons_iff.1 hafter
  dsimp only at he hf
  subst he hf
  have hrun : Reading.run {} before = .ok r := Reading.run_eq_ok_iff.2 (by
    rw [unplaced, hbefore]
    exact hfront)
  have hstart : r.step (p, .start tag) = .ok (r.collect .destination) :=
    Reading.step_eq_ok_iff.2 (.destination hname hopen rfl)
  have hfinish : (r.collect .destination).step (q, .finish tag.name) =
      .error (.invalidValue .emptyId) := by
    show (r.collect .destination).closeTag tag.name q = _
    unfold Reading.closeTag
    rw [hname]
    rfl
  unfold parse ofEvents?
  rw [heq, Reading.run_append hrun, Reading.run, hstart]
  dsimp only
  rw [Reading.run, hfinish]

/-- A tag that changes nothing in any state could be left out. -/
theorem parse_passed_iff {front rest : List Event} {s : String} {tag : Tag}
    (hstream : stream s = front ++ (.empty tag :: rest))
    (hpasses : ∀ r : Reading, r.Moves (.empty tag) r) (d : Document) :
    parse s = .ok d ↔ Reading.Yields {} (front ++ rest) d := by
  rw [parse_iff_yields, hstream, Reading.yields_append_iff, Reading.yields_append_iff]
  refine exists_congr fun r => and_congr_right fun _ => ?_
  have hpassed : r.Runs [.empty tag] r := ⟨r, hpasses r, rfl⟩
  exact Reading.yields_append_of_runs hpassed rest d

/-- The tag of an empty destination changes nothing. -/
theorem moves_empty_destination {tag : Tag} (hname : String.ofList tag.name = "destination")
    (r : Reading) : r.Moves (.empty tag) r :=
  Reading.Opens.passed ⟨by simp [hname], by simp [hname], by simp [hname], by simp [hname],
    by simp [hname], fun _ => Or.inr rfl⟩

/-- Where no relationship and no destination is being filled, both forms of a destination do
nothing. -/
theorem agrees_of_destination {r : Reading} (hrun : Reading.Runs {} (stream head) r)
    (houtside : "destination" ∉ around head) (hfree : r.relationship = none) :
    r.Agrees "destination" where
  value := by simp
  relationship := by simp
  destination _ := ⟨hfree, fun hslot =>
    houtside ((hrun.within_openIn (nests_eventsIn [] _)).destination hslot).1.mem_inner⟩

theorem head?_emptyForm (inside : String) : (emptyForm inside).toList.head? = some '<' := by
  simp [emptyForm]

theorem head?_pairForm (inside closing : String) :
    (pairForm inside closing).toList.head? = some '<' := by
  simp [pairForm]

/-- Both forms are read alike if they do the same in the state in which the text in front is left.
-/
theorem readAlike_forms (hplace : EndsInData (withoutMark head.toList))
    (hforms : TwoForms inside closing)
    (hagrees : ∀ r, Reading.Runs {} (stream head) r → r.Agrees (nameOf inside) ∧
      (nameOf inside = "property" → valueNext r.current.isSome (behind head tail) = false)) :
    ReadAlike head (emptyForm inside) (pairForm inside closing) tail := by
  rcases stream_append_tag hplace with hstream | ⟨-, hstream⟩
  · exact parse_forms_iff (hstream tail (head?_emptyForm inside) hforms.stands_empty (.empty _))
      (hstream tail (head?_pairForm inside closing) hforms.stands_pair (.element _ .nil)) hagrees
  · exact parse_congr ((hstream tail (head?_emptyForm _)).trans
      (hstream tail (head?_pairForm _ _)).symm)

theorem readAlike_unknown (hplace : EndsInData (withoutMark head.toList))
    (hforms : TwoForms inside closing) (hname : nameOf inside = "destination")
    {other otherClosing : String} (hother : TwoForms other otherClosing)
    (hunknown : nameOf other ∉ knownNames) :
    ReadAlike head (emptyForm inside) (emptyForm other) tail := by
  rcases stream_append_tag hplace with hstream | ⟨-, hstream⟩
  · intro d
    rw [parse_passed_iff (hstream tail (head?_emptyForm inside) hforms.stands_empty (.empty _))
        (moves_empty_destination hname),
      parse_passed_iff (hstream tail (head?_emptyForm other) hother.stands_empty (.empty _))
        fun r => (Reading.ignores_of_unknown hunknown r).opens true]
  · exact parse_congr ((hstream tail (head?_emptyForm _)).trans
      (hstream tail (head?_emptyForm _)).symm)

theorem parse_pairForm_emptyId (hplace : EndsInData (withoutMark head.toList))
    (hforms : TwoForms inside closing) (hname : nameOf inside = "destination")
    (hopen : LeavesRelationship head) :
    parse (head ++ pairForm inside closing ++ tail) = .error (.invalidValue .emptyId) := by
  obtain ⟨r, label, hrun, hlabel⟩ := leavesRelationship_iff.1 hopen
  rcases stream_append_tag hplace with hstream | ⟨⟨e, he, hfault⟩, -⟩
  · exact parse_emptyId hname
      (hstream tail (head?_pairForm inside closing) hforms.stands_pair (.element _ .nil)) hrun
      hlabel
  · -- the text in front would not have been read
    cases (hrun.sound e he).symm.trans hfault

/-- Both forms of an element are read alike where the place allows it (`Interchangeable`). An empty
destination is read as an empty element with a name that means nothing. Its tags with nothing
between them are an error where a relationship is open, since an id cannot be empty; where none is,
and outside of other destinations, they are read as the empty element. -/
theorem empty_elements_are_pairs {head inside closing : String}
    (hplace : EndsInData (withoutMark head.toList)) (hforms : TwoForms inside closing)
    (tail : String) :
    (Interchangeable (nameOf inside) (around head) (behind head tail) →
        ReadAlike head (emptyForm inside) (pairForm inside closing) tail) ∧
      (nameOf inside = "destination" →
        (LeavesRelationship head →
          parse (head ++ pairForm inside closing ++ tail) = .error (.invalidValue .emptyId)) ∧
        (¬ LeavesRelationship head → "destination" ∉ around head →
          ReadAlike head (emptyForm inside) (pairForm inside closing) tail) ∧
        ∀ {other otherClosing : String}, TwoForms other otherClosing →
          nameOf other ∉ knownNames →
          ReadAlike head (emptyForm inside) (emptyForm other) tail) := by
  refine ⟨fun hallowed => readAlike_forms hplace hforms fun r hrun => hallowed.agrees hrun,
    fun hname => ⟨parse_pairForm_emptyId hplace hforms hname, fun hclosed houtside => ?_,
      fun hother hunknown => readAlike_unknown hplace hforms hname hother hunknown⟩⟩
  refine readAlike_forms hplace hforms fun r hrun => ?_
  have hfree : r.relationship = none := by
    by_contra hsome
    obtain ⟨label, hlabel⟩ := Option.ne_none_iff_exists'.1 hsome
    exact hclosed (leavesRelationship_iff.2 ⟨r, label, hrun, hlabel⟩)
  rw [hname]
  exact ⟨agrees_of_destination hrun houtside hfree, by simp⟩

end Forms

/-! ## Samples -/

def hornWith (o : Object) : Document := { hornDocument with objects := [o] }

theorem twoForms_value : TwoForms "value" "value " where
  cut := rfl
  full := by simp
  ended := by simp
  named := rfl

theorem twoForms_destination : TwoForms "destination" "destination" where
  cut := rfl
  full := by simp
  ended := by simp
  named := rfl

theorem twoForms_note : TwoForms "note" "note" where
  cut := rfl
  full := by simp
  ended := by simp
  named := rfl

def inProperty : String := openHorn ++ "<property name='x'>"

def inRelationship : String := openHorn ++ "<relationship name='a'>"

theorem endsInData_inProperty : EndsInData (withoutMark inProperty.toList) := by
  unfold inProperty openHorn
  simp only [String.toList_append, String.reduceToList]
  exact endsInData_of_cut rfl

theorem endsInData_inRelationship : EndsInData (withoutMark inRelationship.toList) := by
  unfold inRelationship openHorn
  simp only [String.toList_append, String.reduceToList]
  exact endsInData_of_cut rfl

theorem around_samples : around inProperty = ["property", "object", "objects"] ∧
    around inRelationship = ["relationship", "object", "objects"] := by
  unfold around stream inProperty inRelationship openHorn
  simp only [String.toList_append, String.reduceToList]
  decide

theorem parse_emptyForm_value :
    parse (inProperty ++ emptyForm "value" ++ ("</property>" ++ closeHorn)) =
      .ok (hornWith (bareObject.setProperty "x" "")) := by
  unfold parse inProperty openHorn emptyForm closeHorn
  simp only [String.toList_append, String.reduceToList]
  decide

theorem parse_emptyForm_destination :
    parse (inRelationship ++ emptyForm "destination" ++ ("</relationship>" ++ closeHorn)) =
      .ok (hornWith (bareObject.setEdge "a" [])) := by
  unfold parse inRelationship openHorn emptyForm closeHorn
  simp only [String.toList_append, String.reduceToList]
  decide

theorem parse_strayDestination :
    parse (inProperty ++ emptyForm "destination" ++ ("</property>" ++ closeHorn)) =
      .ok (hornWith bareObject) := by
  unfold parse inProperty openHorn emptyForm closeHorn
  simp only [String.toList_append, String.reduceToList]
  decide

theorem parse_pairForm_destination :
    parse (inRelationship ++ pairForm "destination" "destination" ++
      ("</relationship>" ++ closeHorn)) = .error (.invalidValue .emptyId) := by
  unfold parse inRelationship openHorn pairForm closeHorn
  simp only [String.toList_append, String.reduceToList]
  decide

theorem leavesRelationship_inRelationship : LeavesRelationship inRelationship := by
  refine ⟨?_, ?_⟩
  · have hread : (Reading.run {} (events inRelationship.toList)).isOk = true := by
      unfold inRelationship openHorn
      simp only [String.toList_append, String.reduceToList]
      decide
    cases hrun : Reading.run {} (events inRelationship.toList) with
    | error e =>
      rw [hrun] at hread
      cases hread
    | ok r =>
      have hevents : unplaced (events inRelationship.toList) = stream inRelationship :=
        unplaced_events _
      exact ⟨r, hevents ▸ Reading.run_eq_ok_iff.1 hrun⟩
  · unfold stream inRelationship openHorn
    simp only [String.toList_append, String.reduceToList]
    decide

theorem not_leavesRelationship_inProperty : ¬ LeavesRelationship inProperty := by
  have hclosed : (stream inProperty).foldl (openAfter "relationship") false = false := by
    unfold stream inProperty openHorn
    simp only [String.toList_append, String.reduceToList]
    decide
  intro h
  cases hclosed.symm.trans h.opened

/-- A value, and a destination where a relationship is open and where none is. -/
theorem empty_elements_are_pairs_sample :
    TwoForms "value" "value " ∧ EndsInData (withoutMark inProperty.toList) ∧
      Interchangeable "value" (around inProperty)
        (behind inProperty ("</property>" ++ closeHorn)) ∧
      parse (inProperty ++ pairForm "value" "value " ++ ("</property>" ++ closeHorn)) =
        .ok (hornWith (bareObject.setProperty "x" "")) ∧
      TwoForms "destination" "destination" ∧ EndsInData (withoutMark inRelationship.toList) ∧
      LeavesRelationship inRelationship ∧
      parse (inRelationship ++ pairForm "destination" "destination" ++
        ("</relationship>" ++ closeHorn)) = .error (.invalidValue .emptyId) ∧
      ¬ LeavesRelationship inProperty ∧ "destination" ∉ around inProperty ∧
      parse (inProperty ++ pairForm "destination" "destination" ++
        ("</property>" ++ closeHorn)) = .ok (hornWith bareObject) ∧
      TwoForms "note" "note" ∧ nameOf "note" ∉ knownNames ∧
      parse (inRelationship ++ emptyForm "note" ++ ("</relationship>" ++ closeHorn)) =
        .ok (hornWith (bareObject.setEdge "a" [])) := by
  have hvalue : nameOf "value" = "value" := by decide +kernel
  have hdestination : nameOf "destination" = "destination" := by decide +kernel
  have hunknown : nameOf "note" ∉ knownNames := by decide +kernel
  have hplace : Interchangeable "value" (around inProperty)
      (behind inProperty ("</property>" ++ closeHorn)) := by
    rw [around_samples.1]
    exact ⟨by decide, by decide, by decide, by decide⟩
  have houtside : "destination" ∉ around inProperty := by
    rw [around_samples.1]
    decide
  have hfirst := (empty_elements_are_pairs endsInData_inProperty twoForms_value
    ("</property>" ++ closeHorn)).1 (hvalue ▸ hplace)
  obtain ⟨hrefused, -, hpassed⟩ := (empty_elements_are_pairs endsInData_inRelationship
    twoForms_destination ("</relationship>" ++ closeHorn)).2 hdestination
  obtain ⟨-, halike, -⟩ := (empty_elements_are_pairs endsInData_inProperty twoForms_destination
    ("</property>" ++ closeHorn)).2 hdestination
  exact ⟨twoForms_value, endsInData_inProperty, hplace, (hfirst _).1 parse_emptyForm_value,
    twoForms_destination, endsInData_inRelationship, leavesRelationship_inRelationship,
    hrefused leavesRelationship_inRelationship, not_leavesRelationship_inProperty, houtside,
    (halike not_leavesRelationship_inProperty houtside _).1 parse_strayDestination, twoForms_note,
    hunknown, (hpassed twoForms_note hunknown _).1 parse_emptyForm_destination⟩

/-- A destination, a relationship in another, a value in another and in a destination, and a
property with a value behind it. -/
theorem forms_read_apart :
    (parse (inRelationship ++ emptyForm "destination" ++ ("</relationship>" ++ closeHorn)) =
        .ok (hornWith (bareObject.setEdge "a" [])) ∧
      parse (inRelationship ++ pairForm "destination" "destination" ++
        ("</relationship>" ++ closeHorn)) = .error (.invalidValue .emptyId)) ∧
      ¬ ReadAlike inRelationship (emptyForm "relationship name='b'")
        (pairForm "relationship name='b'" "relationship")
        ("<destination>d</destination></relationship>" ++ closeHorn) ∧
      ¬ ReadAlike (inProperty ++ "<value>v") (emptyForm "value") (pairForm "value" "value")
        ("</value></property>" ++ closeHorn) ∧
      ¬ ReadAlike (inProperty ++ "<relationship name='a'><destination>d") (emptyForm "value")
        (pairForm "value" "value") ("</destination></relationship></property>" ++ closeHorn) ∧
      ¬ ReadAlike openHorn (emptyForm "property name='x'")
        (pairForm "property name='x'" "property") ("<value>v</value>" ++ closeHorn) := by
  have happart : ∀ {head form form' tail : String} (d : Document),
      parse (head ++ form ++ tail) = .ok d → parse (head ++ form' ++ tail) ≠ .ok d →
      ¬ ReadAlike head form form' tail := fun d hok hother halike => hother ((halike d).1 hok)
  refine ⟨⟨parse_emptyForm_destination, parse_pairForm_destination⟩,
    happart (hornWith ((bareObject.setEdge "a" [⟨"d", by decide⟩]).setEdge "b" [])) ?_ ?_,
    happart (hornWith (bareObject.setProperty "x" "v")) ?_ ?_,
    happart (hornWith ((bareObject.setEdge "a" []).setProperty "x" "d")) ?_ ?_,
    happart (hornWith (bareObject.setProperty "x" "v")) ?_ ?_⟩
  all_goals
    simp only [parse, inProperty, inRelationship, openHorn, emptyForm, pairForm, closeHorn,
      String.toList_append, String.reduceToList]
    decide +kernel

end AudioProject.Document
