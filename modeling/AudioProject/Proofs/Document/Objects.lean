import AudioProject.Proofs.Document.Moves

/-
  Complete object elements in a row, and what reading them leaves open. Inside an object, content
  that is well formed leaves the slot and the relationship as they were, or closed (`Runs.stays`).
  Between objects nothing is open but a property: an empty element for a property opens it and
  nothing closes it (`Runs.rests`).
-/

namespace AudioProject.Document

open Markup Text

/-! ## Objects in a row -/

/-- Complete object elements, with character data between them. -/
inductive Objects : List Event → Prop
  | nil : Objects []
  | text (raw : List Char) : Objects [.text raw]
  | cdata (content : List Char) : Objects [.cdata content]
  | empty {tag : Tag} (name : tag.name = "object".toList) : Objects [.empty tag]
  | element {tag : Tag} {es : List Event} (name : tag.name = "object".toList)
    (content : Balanced es) : Objects (.start tag :: (es ++ [.finish tag.name]))
  | append {es fs : List Event} (first : Objects es) (second : Objects fs) : Objects (es ++ fs)

theorem Objects.balanced {es : List Event} (h : Objects es) : Balanced es := by
  induction h with
  | nil => exact .nil
  | text raw => exact .text raw
  | cdata content => exact .cdata content
  | empty name => exact .empty _
  | element name content => exact .element _ content
  | append _ _ ih₁ ih₂ => exact .append ih₁ ih₂

/-- A text that is a sequence of complete object elements, with its events. -/
structure IsObjects (content : String) (es : List Event) : Prop where
  stands : Stands content.toList es
  objects : Objects es

theorem IsObjects.append {A B : String} {es fs : List Event} (hA : IsObjects A es)
    (hB : IsObjects B fs) : IsObjects (A ++ B) (es ++ fs) where
  stands := by
    rw [String.toList_append]
    exact hA.stands.append hA.objects.balanced hB.stands
  objects := .append hA.objects hB.objects

/-- The property that is open behind an event, where a property can be opened. -/
def propertyAfter (property : Option String) : Event → Option String
  | .start tag => if String.ofList tag.name = "property" then tag.text? "name" else property
  | .empty tag => if String.ofList tag.name = "property" then tag.text? "name" else property
  | .finish name => if String.ofList name = "property" then none else property
  | _ => property

/-- The property that objects leave open: the last one they have, if it is an empty element. -/
def leftOpen (es : List Event) : Option String := es.foldl propertyAfter none

namespace Reading

/-! ## What stays open -/

theorem endValue_eq (r : Reading) :
    r.endValue = { r with
      slot := .ignored
      text := []
      current := match r.current, r.property with
        | some o, some name => some (o.setProperty name (String.ofList r.text))
        | current, _ => current } := by
  unfold endValue
  cases r.current with
  | none => rfl
  | some o => cases r.property <;> rfl

theorem isSome_endValue (r : Reading) : r.endValue.current.isSome = r.current.isSome := by
  rw [endValue_eq]
  dsimp only
  cases r.current with
  | none => rfl
  | some o => cases r.property <;> rfl

theorem isSome_take (r : Reading) (id : ObjectId) :
    (r.take id).current.isSome = r.current.isSome := by
  unfold take
  dsimp only
  cases r.current with
  | none => rfl
  | some o => cases r.relationship <;> rfl

/-- Character data changes what is collected and nothing else. -/
theorem exists_of_addText {r r' : Reading} {raw : List Char} (h : r.addText raw = .ok r') :
    ∃ cs, r' = { r with text := cs } ∧ (r.slot = .ignored → cs = r.text) := by
  unfold addText at h
  split at h
  · cases h
    exact ⟨r.text, rfl, fun _ => rfl⟩
  · next hslot =>
    split at h
    · cases h
      exact ⟨_, rfl, fun hignored => absurd hignored hslot⟩
    · cases h

theorem exists_of_addLiteral (r : Reading) (content : List Char) :
    ∃ cs, r.addLiteral content = { r with text := cs } ∧ (r.slot = .ignored → cs = r.text) := by
  unfold addLiteral
  split
  · exact ⟨r.text, rfl, fun _ => rfl⟩
  · next hslot => exact ⟨_, rfl, fun hignored => absurd hignored hslot⟩

/-- Character data in either form changes what is collected and nothing else. -/
theorem Moves.of_data {r r' : Reading} {e : Event} (h : r.Moves e r') (he : e.isData = true) :
    ∃ cs, r' = { r with text := cs } ∧ (r.slot = .ignored → cs = r.text) := by
  cases e with
  | text raw => exact exists_of_addText h
  | cdata content =>
    obtain ⟨cs, hadd, hcs⟩ := exists_of_addLiteral r content
    exact ⟨cs, h.trans hadd, hcs⟩
  | _ => cases he

/-- Where nothing is collected, nothing has been. -/
def Tidy (r : Reading) : Prop := r.slot = .ignored → r.text = []

theorem Moves.tidy {r r' : Reading} {e : Event} (h : r.Moves e r') (hr : r.Tidy) : r'.Tidy := by
  have hopens : ∀ {tag empty}, Opens r tag empty r' → r'.Tidy := by
    intro tag empty h
    cases h with
    | root | object | emptyObject | property | relationship | emptyRelationship | passed =>
      exact hr
    | value | destination => exact fun _ => rfl
    | emptyValue =>
      rw [endValue_eq]
      exact fun _ => rfl
  cases e with
  | start tag => exact hopens h
  | empty tag => exact hopens h
  | finish name =>
    cases h with
    | root | property | relationship | object | passed => exact hr
    | destination => exact fun _ => rfl
    | value =>
      rw [endValue_eq]
      exact fun _ => rfl
  | text raw =>
    obtain ⟨cs, rfl, hcs⟩ := exists_of_addText h
    exact fun hslot => (hcs hslot).trans (hr hslot)
  | cdata content =>
    obtain ⟨cs, hadd, hcs⟩ := exists_of_addLiteral r content
    cases h.trans hadd
    exact fun hslot => (hcs hslot).trans (hr hslot)
  | fault e => exact h.elim

theorem Runs.tidy {r r' : Reading} {es : List Event} (h : r.Runs es r') (hr : r.Tidy) :
    r'.Tidy :=
  h.keeps Moves.tidy hr

/-- There is a root, with its model. -/
def Rooted (r : Reading) : Prop := r.sawRoot = true ∧ r.model.isSome = true

theorem Moves.rooted {r r' : Reading} {e : Event} (h : r.Moves e r') (hr : r.Rooted) :
    r'.Rooted := by
  have hopens : ∀ {tag empty}, Opens r tag empty r' → r'.Rooted := by
    intro tag empty h
    cases h with
    | root => exact ⟨rfl, rfl⟩
    | emptyValue =>
      rw [endValue_eq]
      exact hr
    | _ => exact hr
  cases e with
  | start tag => exact hopens h
  | empty tag => exact hopens h
  | finish name =>
    cases h with
    | value =>
      rw [endValue_eq]
      exact hr
    | _ => exact hr
  | text raw =>
    obtain ⟨cs, rfl, -⟩ := exists_of_addText h
    exact hr
  | cdata content =>
    obtain ⟨cs, hadd, -⟩ := exists_of_addLiteral r content
    cases h.trans hadd
    exact hr
  | fault e => exact h.elim

theorem Runs.rooted {r r' : Reading} {es : List Event} (h : r.Runs es r') (hr : r.Rooted) :
    r'.Rooted :=
  h.keeps Moves.rooted hr

/-! ## Inside an object -/

/-- What reading content leaves as it was, inside an object. -/
structure Stays (r r' : Reading) : Prop where
  inside : r'.current.isSome = true
  slot : r'.slot = r.slot ∨ r'.slot = .ignored
  relationship : r'.relationship = r.relationship ∨ r'.relationship = none

theorem Stays.trans {r r₁ r₂ : Reading} (h₁ : Stays r r₁) (h₂ : Stays r₁ r₂) : Stays r r₂ where
  inside := h₂.inside
  slot := by
    rcases h₂.slot with h | h
    · rw [h]
      exact h₁.slot
    · exact Or.inr h
  relationship := by
    rcases h₂.relationship with h | h
    · rw [h]
      exact h₁.relationship
    · exact Or.inr h

/-- Inside an object no other begins. A start tag can open a slot or a relationship of its own
kind. -/
theorem Opens.inside {r r' : Reading} {tag : Tag} {empty : Bool} (h : Opens r tag empty r')
    (hinside : r.current.isSome = true) :
    r'.current.isSome = true ∧ String.ofList tag.name ≠ "object" ∧
      (r'.slot = r.slot ∨ r'.slot = .ignored ∨
        empty = false ∧ (r'.slot = .value ∧ String.ofList tag.name = "value" ∨
          r'.slot = .destination ∧ String.ofList tag.name = "destination")) ∧
      (r'.relationship = r.relationship ∨
        empty = false ∧ String.ofList tag.name = "relationship") := by
  cases h with
  | root name => exact ⟨hinside, by simp [name], Or.inl rfl, Or.inl rfl⟩
  | object name inside free => simp [free] at hinside
  | emptyObject name inside free => simp [free] at hinside
  | property name => exact ⟨hinside, by simp [name], Or.inl rfl, Or.inl rfl⟩
  | relationship name inside given full =>
    exact ⟨rfl, by simp [name], Or.inl rfl, Or.inr ⟨full, name⟩⟩
  | emptyRelationship name => exact ⟨rfl, by simp [name], Or.inl rfl, Or.inl rfl⟩
  | value name inside full =>
    exact ⟨hinside, by simp [name], Or.inr (Or.inr ⟨full, Or.inl ⟨rfl, name⟩⟩), Or.inl rfl⟩
  | emptyValue name =>
    refine ⟨(isSome_endValue r).trans hinside, by simp [name], ?_, ?_⟩
    · rw [endValue_eq]
      exact Or.inr (Or.inl rfl)
    · rw [endValue_eq]
      exact Or.inl rfl
  | destination name inside full =>
    exact ⟨hinside, by simp [name], Or.inr (Or.inr ⟨full, Or.inr ⟨rfl, name⟩⟩), Or.inl rfl⟩
  | passed h => exact ⟨hinside, h.notObject, Or.inl rfl, Or.inl rfl⟩

/-- An end tag closes the slot or the relationship of its own kind. -/
theorem Closes.inside {r r' : Reading} {name : List Char} (h : Closes r name r')
    (hinside : r.current.isSome = true) (hobject : String.ofList name ≠ "object") :
    Stays r r' ∧ (String.ofList name = "value" → r'.slot ≠ .value) ∧
      (String.ofList name = "destination" → r'.slot ≠ .destination) ∧
      (String.ofList name = "relationship" → r'.relationship = none) := by
  cases h with
  | value named =>
    have hstays : Stays r r.endValue := by
      refine ⟨(isSome_endValue r).trans hinside, ?_, ?_⟩
      · rw [endValue_eq]
        exact Or.inr rfl
      · rw [endValue_eq]
        exact Or.inl rfl
    refine ⟨hstays, fun _ => ?_, by simp [named], by simp [named]⟩
    rw [endValue_eq]
    simp
  | destination named =>
    exact ⟨⟨(isSome_take r _).trans hinside, Or.inr rfl, Or.inl rfl⟩, by simp [named],
      fun _ => by simp [take], by simp [named]⟩
  | root named =>
    exact ⟨⟨hinside, Or.inl rfl, Or.inl rfl⟩, by simp [named], by simp [named], by simp [named]⟩
  | property named =>
    exact ⟨⟨hinside, Or.inl rfl, Or.inl rfl⟩, by simp [named], by simp [named], by simp [named]⟩
  | relationship named =>
    exact ⟨⟨hinside, Or.inl rfl, Or.inr rfl⟩, by simp [named], by simp [named], fun _ => rfl⟩
  | object named => exact absurd named hobject
  | passed notRoot notProperty notRelationship notObject value destination =>
    exact ⟨⟨hinside, Or.inl rfl, Or.inl rfl⟩, value, destination,
      fun named => absurd named notRelationship⟩

/-- An element whose content keeps slot and relationship keeps them too. -/
theorem stays_of_element {r r₁ r₂ r' : Reading} {tag : Tag} (hinside : r.current.isSome = true)
    (hstart : Opens r tag false r₁) (hcontent : Stays r₁ r₂) (hfinish : Closes r₂ tag.name r') :
    Stays r r' := by
  obtain ⟨-, hobject, hslot₁, hrelationship₁⟩ := hstart.inside hinside
  obtain ⟨hstays, hvalue, hdestination, hrelationship⟩ :=
    hfinish.inside hcontent.inside hobject
  refine ⟨hstays.inside, ?_, ?_⟩
  · rcases (hcontent.trans hstays).slot with hslot | hslot
    · rcases hslot₁ with h | h | ⟨-, ⟨h, hname⟩ | ⟨h, hname⟩⟩
      · exact Or.inl (hslot.trans h)
      · exact Or.inr (hslot.trans h)
      · exact absurd (hslot.trans h) (hvalue hname)
      · exact absurd (hslot.trans h) (hdestination hname)
    · exact Or.inr hslot
  · rcases (hcontent.trans hstays).relationship with h | h
    · rcases hrelationship₁ with h₁ | ⟨-, hname⟩
      · exact Or.inl (h.trans h₁)
      · exact Or.inr (hrelationship hname)
    · exact Or.inr h

/-- The end tag of an object. -/
def EndsObject (e : Event) : Prop := ∃ name, e = .finish name ∧ String.ofList name = "object"

/-- Well-formed content of an object stays in it, and leaves no slot and no relationship open. -/
theorem Runs.stays {r r' : Reading} {es : List Event} (hes : Balanced es) (h : r.Runs es r')
    (hinside : r.current.isSome = true) : Stays r r' ∧ ∀ e ∈ es, ¬ EndsObject e := by
  induction hes generalizing r r' with
  | nil =>
    cases h
    exact ⟨⟨hinside, Or.inl rfl, Or.inl rfl⟩, by simp⟩
  | text raw =>
    obtain ⟨r₁, hmove, rfl⟩ := h
    obtain ⟨cs, rfl, -⟩ := exists_of_addText hmove
    exact ⟨⟨hinside, Or.inl rfl, Or.inl rfl⟩, by simp [EndsObject]⟩
  | cdata content =>
    obtain ⟨r₁, hmove, rfl⟩ := h
    obtain ⟨cs, hadd, -⟩ := exists_of_addLiteral r content
    cases hmove.trans hadd
    exact ⟨⟨hinside, Or.inl rfl, Or.inl rfl⟩, by simp [EndsObject]⟩
  | empty tag =>
    obtain ⟨r₁, hmove, rfl⟩ := h
    obtain ⟨hinside₁, -, hslot, hrelationship⟩ := Opens.inside hmove hinside
    simp only [Bool.true_eq_false, false_and, or_false] at hslot hrelationship
    exact ⟨⟨hinside₁, hslot, Or.inl hrelationship⟩, by simp [EndsObject]⟩
  | element tag _ ih =>
    obtain ⟨r₁, hstart, h⟩ := h
    obtain ⟨r₂, hcontent, hfinish⟩ := runs_append_iff.1 h
    obtain ⟨r₃, hfinish, rfl⟩ := hfinish
    obtain ⟨hinside₁, hobject, -, -⟩ := Opens.inside hstart hinside
    obtain ⟨hstays, hno⟩ := ih hcontent hinside₁
    refine ⟨stays_of_element hinside hstart hstays hfinish, ?_⟩
    intro e he
    rcases List.mem_cons.1 he with rfl | he
    · simp [EndsObject]
    rcases List.mem_append.1 he with he | he
    · exact hno e he
    · rw [List.mem_singleton.1 he]
      rintro ⟨name, hname, hnamed⟩
      cases hname
      exact hobject hnamed
  | append _ _ ih₁ ih₂ =>
    obtain ⟨r₁, hfirst, hsecond⟩ := runs_append_iff.1 h
    obtain ⟨hstays₁, hno₁⟩ := ih₁ hfirst hinside
    obtain ⟨hstays₂, hno₂⟩ := ih₂ hsecond hstays₁.inside
    refine ⟨hstays₁.trans hstays₂, ?_⟩
    intro e he
    rcases List.mem_append.1 he with he | he
    · exact hno₁ e he
    · exact hno₂ e he

/-- Only its end tag ends an object, and inside of it each event opens and closes properties as
`propertyAfter` says. -/
theorem Moves.inside {r r' : Reading} {e : Event} (h : r.Moves e r')
    (hinside : r.current.isSome = true) (he : ¬ EndsObject e) :
    r'.current.isSome = true ∧ r'.property = propertyAfter r.property e := by
  have hopens : ∀ {tag empty}, Opens r tag empty r' → r'.current.isSome = true ∧
      r'.property =
        if String.ofList tag.name = "property" then tag.text? "name" else r.property := by
    intro tag empty hopen
    refine ⟨(hopen.inside hinside).1, ?_⟩
    cases hopen with
    | root name | object name | emptyObject name | relationship name | emptyRelationship name =>
      rw [if_neg (by simp [name])]
    | value name | destination name =>
      rw [if_neg (by simp [name])]
      rfl
    | emptyValue name => rw [if_neg (by simp [name]), endValue_eq]
    | property name inside given => rw [if_pos name, given]
    | passed hpasses =>
      by_cases name : String.ofList tag.name = "property"
      · rw [hpasses.property name] at hinside
        cases hinside
      · rw [if_neg name]
  cases e with
  | start tag => exact hopens h
  | empty tag => exact hopens h
  | finish name =>
    have hobject : String.ofList name ≠ "object" := fun named => he ⟨name, rfl, named⟩
    refine ⟨(Closes.inside h hinside hobject).1.inside, ?_⟩
    show r'.property = if String.ofList name = "property" then none else r.property
    cases h with
    | value named => rw [if_neg (by simp [named]), endValue_eq]
    | destination named =>
      rw [if_neg (by simp [named])]
      rfl
    | root named | relationship named | object named => rw [if_neg (by simp [named])]
    | property named => rw [if_pos named]
    | passed notRoot notProperty => rw [if_neg notProperty]
  | text raw =>
    obtain ⟨cs, rfl, -⟩ := exists_of_addText h
    exact ⟨hinside, rfl⟩
  | cdata content =>
    obtain ⟨cs, hadd, -⟩ := exists_of_addLiteral r content
    cases h.trans hadd
    exact ⟨hinside, rfl⟩
  | fault e => exact h.elim

theorem Runs.inside {r r' : Reading} {es : List Event} (h : r.Runs es r')
    (hinside : r.current.isSome = true) (hes : ∀ e ∈ es, ¬ EndsObject e) :
    r'.property = es.foldl propertyAfter r.property := by
  induction es generalizing r with
  | nil =>
    cases h
    rfl
  | cons e es ih =>
    obtain ⟨r₁, hmove, hrun⟩ := h
    obtain ⟨hinside₁, hproperty⟩ := hmove.inside hinside (hes e List.mem_cons_self)
    rw [List.foldl_cons, ← hproperty]
    exact ih hrun hinside₁ fun e he => hes e (List.mem_cons_of_mem _ he)

/-! ## Between objects -/

/-- The state between the objects of a root: nothing is open but a property at most. -/
structure AtRest (r : Reading) : Prop where
  free : r.current = none
  relationship : r.relationship = none
  slot : r.slot = .ignored
  tidy : r.Tidy
  rooted : r.Rooted

theorem Opens.of_object {r r' : Reading} {tag : Tag} {empty : Bool} (h : Opens r tag empty r')
    (name : tag.name = "object".toList) :
    ∃ o : Object, r' =
      if empty then { r with objects := r.objects ++ [o] } else { r with current := some o } := by
  have hopen := h.openTag 0
  have hname : String.ofList tag.name = "object" := by
    rw [name]
    rfl
  unfold Reading.openTag at hopen
  rw [hname] at hopen
  obtain ⟨-, -, _, _, _, -, -, -, h⟩ := openObject_eq_ok_iff.1 hopen
  exact ⟨_, h⟩

theorem Closes.of_object {r r' : Reading} {name : List Char} (h : Closes r name r')
    (hname : name = "object".toList) :
    ∃ o, r.current = some o ∧ r' = { r with objects := r.objects ++ [o], current := none } := by
  have hname : String.ofList name = "object" := by
    rw [hname]
    rfl
  cases h with
  | object named inside => exact ⟨_, inside, rfl⟩
  | value named | destination named | root named | property named | relationship named =>
    simp [hname] at named
  | passed _ _ _ notObject => exact absurd hname notObject

theorem Runs.rests {r r' : Reading} {es : List Event} (h : r.Runs es r') (hes : Objects es)
    (hr : r.AtRest) : r'.AtRest ∧ r'.property = es.foldl propertyAfter r.property := by
  induction hes generalizing r r' with
  | nil =>
    cases h
    exact ⟨hr, rfl⟩
  | text raw =>
    obtain ⟨r₁, hmove, rfl⟩ := h
    obtain ⟨cs, rfl, hcs⟩ := exists_of_addText hmove
    rw [hcs hr.slot]
    exact ⟨hr, rfl⟩
  | cdata content =>
    obtain ⟨r₁, hmove, rfl⟩ := h
    obtain ⟨cs, hadd, hcs⟩ := exists_of_addLiteral r content
    cases hmove.trans hadd
    rw [hcs hr.slot]
    exact ⟨hr, rfl⟩
  | empty name =>
    obtain ⟨r₁, hmove, rfl⟩ := h
    obtain ⟨o, rfl⟩ := Opens.of_object hmove name
    exact ⟨⟨hr.free, hr.relationship, hr.slot, hr.tidy, hr.rooted⟩, by simp [propertyAfter, name]⟩
  | @element tag es name content =>
    have hrooted := h.rooted hr.rooted
    have htidy := h.tidy hr.tidy
    obtain ⟨r₁, hstart, h⟩ := h
    obtain ⟨r₂, hcontent, hfinish⟩ := runs_append_iff.1 h
    obtain ⟨r₃, hfinish, rfl⟩ := hfinish
    obtain ⟨o, rfl⟩ := Opens.of_object hstart name
    obtain ⟨hstays, hno⟩ := Runs.stays content hcontent rfl
    have hproperty := Runs.inside hcontent rfl hno
    obtain ⟨o', -, rfl⟩ := Closes.of_object hfinish name
    refine ⟨⟨rfl, ?_, ?_, htidy, hrooted⟩, ?_⟩
    · exact hstays.relationship.elim (fun h => h.trans hr.relationship) id
    · exact hstays.slot.elim (fun h => h.trans hr.slot) id
    · rw [List.foldl_cons, List.foldl_append]
      simpa [propertyAfter, name] using hproperty
  | append _ _ ih₁ ih₂ =>
    obtain ⟨r₁, hfirst, hsecond⟩ := runs_append_iff.1 h
    obtain ⟨hrest₁, hproperty₁⟩ := ih₁ hfirst hr
    obtain ⟨hrest₂, hproperty₂⟩ := ih₂ hsecond hrest₁
    exact ⟨hrest₂, by rw [List.foldl_append, hproperty₂, hproperty₁]⟩

end Reading

end AudioProject.Document
