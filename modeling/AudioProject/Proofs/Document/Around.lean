import AudioProject.Proofs.Document.Setting
import AudioProject.Proofs.Markup.Nesting

/-
  What the elements around a place say about the state there. An object, a relationship, a value
  or a destination that is being filled stands in an open element of its own, whose end tag ends
  it (`Within`, `Runs.within`). A property is different: its empty element opens it too, and then
  nothing ends it. What is said of properties holds where no such element was read
  (`Event.isLoose`).
-/

namespace AudioProject.Markup

/-- An element with one name is open inside an open element with another. -/
def Inside (outer inner : String) (names : List String) : Prop :=
  ∃ above below, names = above ++ inner :: below ∧ outer ∈ below

section Inside

variable {outer inner name : String} {names : List String}

theorem inside_cons (h : outer ∈ names) : Inside outer inner (inner :: names) :=
  ⟨[], names, rfl, h⟩

theorem Inside.push (h : Inside outer inner names) : Inside outer inner (name :: names) := by
  obtain ⟨above, below, rfl, hbelow⟩ := h
  exact ⟨name :: above, below, rfl, hbelow⟩

theorem Inside.pop (h : Inside outer inner (name :: names)) (hne : name ≠ inner) :
    Inside outer inner names := by
  obtain ⟨above, below, heq, hbelow⟩ := h
  cases above with
  | nil => exact absurd (List.cons.inj heq).1 hne
  | cons _ above => exact ⟨above, below, (List.cons.inj heq).2, hbelow⟩

theorem Inside.mem_outer (h : Inside outer inner names) : outer ∈ names := by
  obtain ⟨above, below, rfl, hbelow⟩ := h
  exact List.mem_append_right above (List.mem_cons_of_mem inner hbelow)

theorem Inside.mem_inner (h : Inside outer inner names) : inner ∈ names := by
  obtain ⟨above, below, rfl, -⟩ := h
  exact List.mem_append_right above List.mem_cons_self

end Inside

/-- An empty element for a property. -/
def Event.isLoose : Event → Bool
  | empty tag => String.ofList tag.name = "property"
  | _ => false

end AudioProject.Markup

namespace AudioProject.Document

open Markup Text

/-! ## The rest of a text -/

/-- Events lead from a state to the end of a document. -/
def Reading.Yields (r : Reading) (es : List Event) (d : Document) : Prop :=
  ∃ r', r.Runs es r' ∧ r'.Completes d

theorem parse_iff_yields {s : String} {d : Document} :
    parse s = .ok d ↔ Reading.Yields {} (stream s) d :=
  parse_eq_ok_iff

namespace Reading

theorem yields_cons_iff {r : Reading} {e : Event} {es : List Event} {d : Document} :
    r.Yields (e :: es) d ↔ ∃ r', r.Moves e r' ∧ r'.Yields es d := by
  constructor
  · rintro ⟨r'', ⟨r', hmove, hrun⟩, hd⟩
    exact ⟨r', hmove, r'', hrun, hd⟩
  · rintro ⟨r', hmove, r'', hrun, hd⟩
    exact ⟨r'', ⟨r', hmove, hrun⟩, hd⟩

theorem yields_append_iff {r : Reading} {es fs : List Event} {d : Document} :
    r.Yields (es ++ fs) d ↔ ∃ r', r.Runs es r' ∧ r'.Yields fs d := by
  constructor
  · rintro ⟨r'', hrun, hd⟩
    obtain ⟨r', hfirst, hsecond⟩ := runs_append_iff.1 hrun
    exact ⟨r', hfirst, r'', hsecond, hd⟩
  · rintro ⟨r', hfirst, r'', hsecond, hd⟩
    exact ⟨r'', hfirst.append hsecond, hd⟩

/-- Events that change nothing could be left out. -/
theorem yields_append_of_runs {r : Reading} {es : List Event} (h : r.Runs es r) (fs : List Event)
    (d : Document) : r.Yields (es ++ fs) d ↔ r.Yields fs d := by
  rw [yields_append_iff]
  constructor
  · rintro ⟨r', hrun, hrest⟩
    obtain rfl := hrun.unique h
    exact hrest
  · exact fun hrest => ⟨r, h, hrest⟩

/-! ## What is open -/

/-- What is being filled is open. `loose` says that an empty element for a property was read. -/
structure Within (loose : Bool) (r : Reading) (names : List String) : Prop where
  object : names.count "object" = if r.current.isSome then 1 else 0
  relationship : r.relationship.isSome = true → Inside "object" "relationship" names
  destination : r.slot = .destination →
    Inside "object" "destination" names ∧ Inside "relationship" "destination" names
  value : r.slot = .value → "value" ∈ names
  valueInside : loose = false → r.slot = .value → Inside "object" "value" names
  property : loose = false → r.property.isSome = true → Inside "object" "property" names

section Within

variable {loose : Bool} {r r' : Reading} {names : List String} {name : String}

theorem within_start : Within false {} [] where
  object := rfl
  relationship := by simp
  destination := by simp
  value := by simp
  valueInside := by simp
  property := by simp

theorem Within.object_mem (h : Within loose r names) (hinside : r.current.isSome = true) :
    "object" ∈ names := by
  have hcount := h.object
  rw [if_pos hinside] at hcount
  exact List.count_pos_iff.1 (by omega)

theorem Within.isSome_current (h : Within loose r names) (hmem : "object" ∈ names) :
    r.current.isSome = true := by
  have hcount := h.object
  have hpos := List.count_pos_iff.2 hmem
  by_contra hfree
  rw [if_neg hfree] at hcount
  omega

theorem Within.loosen (h : Within loose r names) (more : Bool) :
    Within (loose || more) r names where
  object := h.object
  relationship := h.relationship
  destination := h.destination
  value := h.value
  valueInside hstrict := h.valueInside (Bool.or_eq_false_iff.1 hstrict).1
  property hstrict := h.property (Bool.or_eq_false_iff.1 hstrict).1

/-- Less may be filled. -/
theorem Within.mono (h : Within loose r names)
    (hcurrent : r'.current.isSome = r.current.isSome)
    (hrelationship : r'.relationship = r.relationship ∨ r'.relationship = none)
    (hslot : r'.slot = r.slot ∨ r'.slot = .ignored)
    (hproperty : r'.property = r.property ∨ r'.property = none) : Within loose r' names where
  object := by
    rw [hcurrent]
    exact h.object
  relationship hsome := by
    rcases hrelationship with heq | heq
    · exact h.relationship (heq ▸ hsome)
    · simp [heq] at hsome
  destination hfilled := by
    rcases hslot with heq | heq
    · exact h.destination (heq ▸ hfilled)
    · simp [heq] at hfilled
  value hfilled := by
    rcases hslot with heq | heq
    · exact h.value (heq ▸ hfilled)
    · simp [heq] at hfilled
  valueInside hstrict hfilled := by
    rcases hslot with heq | heq
    · exact h.valueInside hstrict (heq ▸ hfilled)
    · simp [heq] at hfilled
  property hstrict hsome := by
    rcases hproperty with heq | heq
    · exact h.property hstrict (heq ▸ hsome)
    · simp [heq] at hsome

theorem Within.push (h : Within loose r names) (hname : name ≠ "object") :
    Within loose r (name :: names) where
  object := by
    rw [List.count_cons_of_ne hname]
    exact h.object
  relationship hsome := (h.relationship hsome).push
  destination hfilled := (h.destination hfilled).imp Inside.push Inside.push
  value hfilled := List.mem_cons_of_mem name (h.value hfilled)
  valueInside hstrict hfilled := (h.valueInside hstrict hfilled).push
  property hstrict hsome := (h.property hstrict hsome).push

/-- An end tag leaves the others open, where what it ends is not being filled. -/
theorem Within.pop (h : Within loose r (name :: names)) (hobject : name ≠ "object")
    (hrelationship : name = "relationship" → r.relationship = none)
    (hdestination : name = "destination" → r.slot ≠ .destination)
    (hvalue : name = "value" → r.slot ≠ .value)
    (hproperty : name = "property" → r.property = none) : Within loose r names where
  object := by
    rw [← h.object, List.count_cons_of_ne hobject]
  relationship hsome :=
    (h.relationship hsome).pop fun heq => by simp [hrelationship heq] at hsome
  destination hfilled :=
    (h.destination hfilled).imp (fun h => h.pop fun heq => hdestination heq hfilled)
      fun h => h.pop fun heq => hdestination heq hfilled
  value hfilled := by
    rcases List.mem_cons.1 (h.value hfilled) with heq | hmem
    · exact absurd hfilled (hvalue heq.symm)
    · exact hmem
  valueInside hstrict hfilled :=
    (h.valueInside hstrict hfilled).pop fun heq => hvalue heq hfilled
  property hstrict hsome :=
    (h.property hstrict hsome).pop fun heq => by simp [hproperty heq] at hsome

theorem Opens.within {tag : Tag} (h : Opens r tag false r') (hr : Within loose r names) :
    Within loose r' (String.ofList tag.name :: names) := by
  cases h with
  | root name =>
    exact (hr.push (by simp [name])).mono rfl (Or.inl rfl) (Or.inl rfl) (Or.inl rfl)
  | object name inside free =>
    rw [name]
    refine ⟨?_, fun hsome => (hr.relationship hsome).push,
      fun hfilled => (hr.destination hfilled).imp Inside.push Inside.push,
      fun hfilled => List.mem_cons_of_mem _ (hr.value hfilled),
      fun hstrict hfilled => (hr.valueInside hstrict hfilled).push,
      fun hstrict hsome => (hr.property hstrict hsome).push⟩
    have hcount := hr.object
    rw [free] at hcount
    rw [List.count_cons_self, hcount]
    rfl
  | emptyObject name inside free hclass hid valid bare => cases bare
  | property name inside given =>
    have hobject := hr.object_mem (by simp [inside])
    have hpush : Within loose r ("property" :: names) := hr.push (by simp)
    rw [name]
    exact ⟨hpush.object, hpush.relationship, hpush.destination, hpush.value, hpush.valueInside,
      fun _ _ => inside_cons hobject⟩
  | relationship name inside given full =>
    have hobject := hr.object_mem (by simp [inside])
    have hpush : Within loose r ("relationship" :: names) := hr.push (by simp)
    rw [name]
    refine ⟨?_, fun _ => inside_cons hobject, hpush.destination, hpush.value, hpush.valueInside,
      hpush.property⟩
    rw [hpush.object, inside]
    rfl
  | emptyRelationship name inside given bare => cases bare
  | value name inside full =>
    have hpush : Within loose r ("value" :: names) := hr.push (by simp)
    rw [name]
    refine ⟨hpush.object, hpush.relationship, by simp [collect], fun _ => List.mem_cons_self,
      fun hstrict _ => ?_, hpush.property⟩
    exact inside_cons (hr.property hstrict (by simp [inside])).mem_outer
  | emptyValue name inside bare => cases bare
  | destination name inside full =>
    have hrelationship := hr.relationship (by simp [inside])
    have hpush : Within loose r ("destination" :: names) := hr.push (by simp)
    rw [name]
    exact ⟨hpush.object, hpush.relationship,
      fun _ => ⟨inside_cons hrelationship.mem_outer, inside_cons hrelationship.mem_inner⟩,
      by simp [collect], by simp [collect], hpush.property⟩
  | passed h => exact hr.push h.notObject

theorem Opens.within_empty {tag : Tag} (h : Opens r tag true r') (hr : Within loose r names) :
    Within (loose || decide (String.ofList tag.name = "property")) r' names := by
  cases h with
  | object name inside free hclass hid valid full => cases full
  | relationship name inside given full => cases full
  | value name inside full => cases full
  | destination name inside full => cases full
  | root name =>
    exact (hr.loosen _).mono rfl (Or.inl rfl) (Or.inl rfl) (Or.inl rfl)
  | emptyObject name =>
    exact (hr.loosen _).mono rfl (Or.inl rfl) (Or.inl rfl) (Or.inl rfl)
  | property name =>
    have hloose := hr.loosen (decide (String.ofList tag.name = "property"))
    exact ⟨hloose.object, hloose.relationship, hloose.destination, hloose.value,
      hloose.valueInside, by simp [name]⟩
  | emptyRelationship name inside =>
    exact (hr.loosen _).mono (by simp [inside]) (Or.inl rfl) (Or.inl rfl) (Or.inl rfl)
  | emptyValue name =>
    refine (hr.loosen _).mono (isSome_endValue r) ?_ ?_ ?_
    · rw [endValue_eq]
      exact Or.inl rfl
    · rw [endValue_eq]
      exact Or.inr rfl
    · rw [endValue_eq]
      exact Or.inl rfl
  | passed => exact hr.loosen _

theorem Closes.within {closed : List Char} (h : Closes r closed r')
    (hr : Within loose r (String.ofList closed :: names)) : Within loose r' names := by
  cases h with
  | value named =>
    have hended : r.endValue.slot = .ignored := by rw [endValue_eq]
    have hless : Within loose r.endValue (String.ofList closed :: names) := by
      refine hr.mono (isSome_endValue r) ?_ (Or.inr hended) ?_
      · rw [endValue_eq]
        exact Or.inl rfl
      · rw [endValue_eq]
        exact Or.inl rfl
    exact hless.pop (by simp [named]) (by simp [named]) (by simp [named]) (by simp [hended])
      (by simp [named])
  | @destination id named =>
    have hless : Within loose (r.take id) (String.ofList closed :: names) :=
      hr.mono (isSome_take r id) (Or.inl rfl) (Or.inr rfl) (Or.inl rfl)
    exact hless.pop (by simp [named]) (by simp [named]) (by simp [take]) (by simp [named])
      (by simp [named])
  | root named =>
    have hless : Within loose { r with closedRoot := true } (String.ofList closed :: names) :=
      hr.mono rfl (Or.inl rfl) (Or.inl rfl) (Or.inl rfl)
    exact hless.pop (by simp [named]) (by simp [named]) (by simp [named]) (by simp [named])
      (by simp [named])
  | property named =>
    have hless : Within loose { r with property := none } (String.ofList closed :: names) :=
      hr.mono rfl (Or.inl rfl) (Or.inl rfl) (Or.inr rfl)
    exact hless.pop (by simp [named]) (by simp [named]) (by simp [named]) (by simp [named])
      (fun _ => rfl)
  | relationship named =>
    have hless : Within loose { r with relationship := none } (String.ofList closed :: names) :=
      hr.mono rfl (Or.inr rfl) (Or.inl rfl) (Or.inl rfl)
    exact hless.pop (by simp [named]) (fun _ => rfl) (by simp [named]) (by simp [named])
      (by simp [named])
  | object named inside =>
    rw [named] at hr
    refine ⟨?_, fun hsome => (hr.relationship hsome).pop (by simp),
      fun hfilled => (hr.destination hfilled).imp (fun h => h.pop (by simp))
        fun h => h.pop (by simp),
      fun hfilled => List.mem_of_ne_of_mem (by simp) (hr.value hfilled),
      fun hstrict hfilled => (hr.valueInside hstrict hfilled).pop (by simp),
      fun hstrict hsome => (hr.property hstrict hsome).pop (by simp)⟩
    have hcount := hr.object
    rw [List.count_cons_self, inside] at hcount
    simpa using hcount
  | passed notRoot notProperty notRelationship notObject value destination =>
    exact hr.pop notObject (fun named => absurd named notRelationship) destination value
      fun named => absurd named notProperty

theorem Moves.within {e : Event} {opened : List (List Char)} (h : r.Moves e r')
    (hfits : e.Fits opened) (hr : Within loose r (opened.map String.ofList)) :
    Within (loose || e.isLoose) r' ((e.nest opened).map String.ofList) := by
  cases e with
  | start tag =>
    simp only [Event.isLoose, Bool.or_false]
    exact Opens.within h hr
  | empty tag => exact Opens.within_empty h hr
  | finish closed =>
    obtain ⟨rest, rfl⟩ := List.head?_eq_some_iff.1 hfits
    simp only [Event.isLoose, Bool.or_false]
    exact Closes.within h hr
  | text | cdata =>
    obtain ⟨cs, rfl, -⟩ := h.of_data rfl
    exact (hr.loosen _).mono rfl (Or.inl rfl) (Or.inl rfl) (Or.inl rfl)
  | fault e => exact h.elim

theorem Runs.within {es : List Event} {opened : List (List Char)} (h : r.Runs es r')
    (hnests : Nests opened es) (hr : Within loose r (opened.map String.ofList)) :
    Within (loose || es.any Event.isLoose) r' ((es.foldl Event.nest opened).map String.ofList) := by
  induction es generalizing r opened loose with
  | nil =>
    cases h
    exact hr.loosen _
  | cons e es ih =>
    obtain ⟨r₁, hmove, hrun⟩ := h
    have hrest := ih hrun hnests.2 (hmove.within hnests.1 hr)
    rwa [Bool.or_assoc] at hrest

/-- What is open behind events is open in the state they lead to. -/
theorem Runs.within_openIn {es : List Event} (h : Reading.Runs {} es r) (hnests : Nests [] es) :
    Within (es.any Event.isLoose) r (openIn es) :=
  h.within hnests within_start

/-- Right inside an object nothing else is being filled. -/
theorem Within.rests (h : Within loose r names) (hobject : names.head? = some "object") :
    r.relationship = none ∧ r.slot ≠ .destination ∧
      (loose = false → r.property = none ∧ r.slot ≠ .value) := by
  obtain ⟨rest, rfl⟩ := List.head?_eq_some_iff.1 hobject
  have hsingle : "object" ∉ rest := by
    intro hmem
    have hcount := h.object
    have hpos := List.count_pos_iff.2 hmem
    rw [List.count_cons_self] at hcount
    split at hcount <;> omega
  have hnone : ∀ {inner : String}, inner ≠ "object" →
      ¬ Inside "object" inner ("object" :: rest) := fun hne hinside =>
    hsingle (hinside.pop (Ne.symm hne)).mem_outer
  refine ⟨?_, fun hfilled => hnone (by simp) (h.destination hfilled).1, fun hstrict => ⟨?_, ?_⟩⟩
  · by_contra hsome
    exact hnone (by simp) (h.relationship (Option.isSome_iff_ne_none.2 hsome))
  · by_contra hsome
    exact hnone (by simp) (h.property hstrict (Option.isSome_iff_ne_none.2 hsome))
  · exact fun hfilled => hnone (by simp) (h.valueInside hstrict hfilled)

end Within

end Reading

end AudioProject.Document
