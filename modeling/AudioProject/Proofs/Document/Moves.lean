import AudioProject.Document.Reading
import AudioProject.Proofs.Action
import AudioProject.Proofs.Markup.Balance

/-
  What one event does to the state of reading, where it is not an error. `Opens` has the tags,
  `Closes` the end tags, and `Moves` every event; none of them looks at the byte the event stands
  at, which is for messages only. `Runs` is a sequence of moves.
  `parse_eq_ok_iff`: a text is read exactly if its events run to a state that is complete.
-/

namespace AudioProject.Markup

/-- The value of an attribute, if it is there and nothing is wrong in front of it. -/
def Tag.text? (t : Tag) (key : String) : Option String :=
  match t.value? key.toList with
  | .ok (some v) => some (String.ofList v)
  | _ => none

end AudioProject.Markup

namespace AudioProject.Document

open Markup Text

namespace Reading

theorem required_eq_ok_iff {tag : Tag} {key v : String} {position : Nat} :
    required tag key position = .ok v ↔ tag.text? key = some v := by
  unfold required Tag.text?
  cases tag.value? key.toList with
  | error e => simp
  | ok value =>
    cases value with
    | none => simp
    | some value => simp

theorem checked_eq_ok_iff {α : Type} {x : Except ValueError α} {a : α} :
    checked x = .ok a ↔ x = .ok a := by
  cases x <;> simp [checked]

/-! ## Tags -/

/-- A tag that changes nothing: one without a meaning, or one in a place where it has none. -/
structure Passes (r : Reading) (tag : Tag) (empty : Bool) : Prop where
  notRoot : String.ofList tag.name ≠ "objects"
  notObject : String.ofList tag.name ≠ "object"
  notRelationship : String.ofList tag.name ≠ "relationship"
  property : String.ofList tag.name = "property" → r.current = none
  value : String.ofList tag.name = "value" → r.property = none
  destination : String.ofList tag.name = "destination" → r.relationship = none ∨ empty = true

/-- What a start tag can do, or the tag of an empty element. -/
inductive Opens (r : Reading) (tag : Tag) (empty : Bool) : Reading → Prop
  | root {text : String} {model : Model} (name : String.ofList tag.name = "objects")
    (given : tag.text? "serializationModel" = some text)
    (valid : Model.ofString? text = .ok model) :
    Opens r tag empty { r with model := some model, sawRoot := true, closedRoot := empty }
  | object {label text : String} {id : ObjectId} (name : String.ofList tag.name = "object")
    (inside : r.sawRoot = true) (free : r.current = none)
    (classAttribute : tag.text? "class" = some label) (idAttribute : tag.text? "id" = some text)
    (valid : ObjectId.ofString? text = .ok id) (full : empty = false) :
    Opens r tag empty { r with current := some { id := id, objectClass := .ofName label } }
  | emptyObject {label text : String} {id : ObjectId} (name : String.ofList tag.name = "object")
    (inside : r.sawRoot = true) (free : r.current = none)
    (classAttribute : tag.text? "class" = some label) (idAttribute : tag.text? "id" = some text)
    (valid : ObjectId.ofString? text = .ok id) (bare : empty = true) :
    Opens r tag empty
      { r with objects := r.objects ++ [{ id := id, objectClass := .ofName label }] }
  | property {label : String} {o : Object} (name : String.ofList tag.name = "property")
    (inside : r.current = some o) (given : tag.text? "name" = some label) :
    Opens r tag empty { r with property := some label }
  | relationship {label : String} {o : Object} (name : String.ofList tag.name = "relationship")
    (inside : r.current = some o) (given : tag.text? "name" = some label)
    (full : empty = false) :
    Opens r tag empty
      { r with current := some (o.setEdge label (o.edge label)), relationship := some label }
  | emptyRelationship {label : String} {o : Object}
    (name : String.ofList tag.name = "relationship") (inside : r.current = some o)
    (given : tag.text? "name" = some label) (bare : empty = true) :
    Opens r tag empty { r with current := some (o.setEdge label (o.edge label)) }
  | value {label : String} (name : String.ofList tag.name = "value")
    (inside : r.property = some label) (full : empty = false) :
    Opens r tag empty (r.collect .value)
  | emptyValue {label : String} (name : String.ofList tag.name = "value")
    (inside : r.property = some label) (bare : empty = true) :
    Opens r tag empty r.endValue
  | destination {label : String} (name : String.ofList tag.name = "destination")
    (inside : r.relationship = some label) (full : empty = false) :
    Opens r tag empty (r.collect .destination)
  | passed (h : Passes r tag empty) : Opens r tag empty r

theorem openRoot_eq_ok_iff {r r' : Reading} {tag : Tag} {empty : Bool} {position : Nat} :
    r.openRoot tag empty position = .ok r' ↔
      ∃ text model, tag.text? "serializationModel" = some text ∧
        Model.ofString? text = .ok model ∧
        r' = { r with model := some model, sawRoot := true, closedRoot := empty } := by
  unfold openRoot
  constructor
  · intro h
    obtain ⟨text, htext, h⟩ := bind_eq_ok.1 h
    obtain ⟨model, hmodel, h⟩ := bind_eq_ok.1 h
    cases h
    exact ⟨text, model, required_eq_ok_iff.1 htext, checked_eq_ok_iff.1 hmodel, rfl⟩
  · rintro ⟨text, model, htext, hmodel, rfl⟩
    rw [required_eq_ok_iff.2 htext, ok_bind, checked_eq_ok_iff.2 hmodel, ok_bind]

theorem openObject_eq_ok_iff {r r' : Reading} {tag : Tag} {empty : Bool} {position : Nat} :
    r.openObject tag empty position = .ok r' ↔
      r.sawRoot = true ∧ r.current = none ∧
        ∃ label text id, tag.text? "class" = some label ∧ tag.text? "id" = some text ∧
          ObjectId.ofString? text = .ok id ∧
          r' = if empty then
              { r with objects := r.objects ++ [{ id := id, objectClass := .ofName label }] }
            else { r with current := some { id := id, objectClass := .ofName label } } := by
  unfold openObject
  by_cases hroot : r.sawRoot = true
  · by_cases hfree : r.current = none
    · rw [if_neg (by simp [hroot]), if_neg (by simp [hfree])]
      constructor
      · intro h
        obtain ⟨label, hlabel, h⟩ := bind_eq_ok.1 h
        obtain ⟨text, htext, h⟩ := bind_eq_ok.1 h
        obtain ⟨id, hid, h⟩ := bind_eq_ok.1 h
        cases h
        exact ⟨hroot, hfree, label, text, id, required_eq_ok_iff.1 hlabel,
          required_eq_ok_iff.1 htext, checked_eq_ok_iff.1 hid, rfl⟩
      · rintro ⟨-, -, label, text, id, hlabel, htext, hid, rfl⟩
        rw [required_eq_ok_iff.2 hlabel, ok_bind, required_eq_ok_iff.2 htext, ok_bind,
          checked_eq_ok_iff.2 hid, ok_bind]
    · have hsome : r.current.isSome = true := Option.isSome_iff_ne_none.2 hfree
      simp [hroot, hsome, hfree]
  · simp [hroot]

theorem openRelationship_eq_ok_iff {r r' : Reading} {tag : Tag} {empty : Bool}
    {position : Nat} :
    r.openRelationship tag empty position = .ok r' ↔
      ∃ label o, tag.text? "name" = some label ∧ r.current = some o ∧
        r' = if empty then { r with current := some (o.setEdge label (o.edge label)) }
          else { r with
            current := some (o.setEdge label (o.edge label)), relationship := some label } := by
  unfold openRelationship
  constructor
  · intro h
    obtain ⟨label, hlabel, h⟩ := bind_eq_ok.1 h
    cases hcurrent : r.current with
    | none =>
      rw [hcurrent] at h
      cases h
    | some o =>
      rw [hcurrent] at h
      cases h
      exact ⟨label, o, required_eq_ok_iff.1 hlabel, rfl, rfl⟩
  · rintro ⟨label, o, hlabel, hcurrent, rfl⟩
    rw [required_eq_ok_iff.2 hlabel, ok_bind, hcurrent]

theorem opens_of_openTag {r r' : Reading} {tag : Tag} {empty : Bool} {position : Nat}
    (h : r.openTag tag empty position = .ok r') : Opens r tag empty r' := by
  unfold openTag at h
  split at h
  · next name =>
    obtain ⟨text, model, htext, hmodel, rfl⟩ := openRoot_eq_ok_iff.1 h
    exact .root name htext hmodel
  · next name =>
    obtain ⟨hroot, hfree, label, text, id, hlabel, htext, hid, rfl⟩ := openObject_eq_ok_iff.1 h
    cases empty with
    | false => exact .object name hroot hfree hlabel htext hid rfl
    | true => exact .emptyObject name hroot hfree hlabel htext hid rfl
  · next name =>
    unfold openProperty at h
    cases hcurrent : r.current with
    | none =>
      rw [hcurrent] at h
      cases h
      exact .passed ⟨by simp [name], by simp [name], by simp [name], fun _ => hcurrent,
        by simp [name], by simp [name]⟩
    | some o =>
      rw [if_pos (by simp [hcurrent])] at h
      obtain ⟨label, hlabel, h⟩ := bind_eq_ok.1 h
      cases h
      exact .property name hcurrent (required_eq_ok_iff.1 hlabel)
  · next name =>
    obtain ⟨label, o, hlabel, hcurrent, rfl⟩ := openRelationship_eq_ok_iff.1 h
    cases empty with
    | false => exact .relationship name hcurrent hlabel rfl
    | true => exact .emptyRelationship name hcurrent hlabel rfl
  · next name =>
    cases hproperty : r.property with
    | none =>
      rw [hproperty] at h
      cases h
      exact .passed ⟨by simp [name], by simp [name], by simp [name], by simp [name],
        fun _ => hproperty, by simp [name]⟩
    | some label =>
      rw [hproperty] at h
      cases h
      cases empty with
      | false => exact .value name hproperty rfl
      | true => exact .emptyValue name hproperty rfl
  · next name =>
    by_cases hinside : r.relationship = none ∨ empty = true
    · rw [if_pos (by simpa using hinside)] at h
      cases h
      exact .passed ⟨by simp [name], by simp [name], by simp [name], by simp [name],
        by simp [name], fun _ => hinside⟩
    · rw [if_neg (by simpa using hinside)] at h
      cases h
      rw [not_or] at hinside
      obtain ⟨label, hlabel⟩ := Option.ne_none_iff_exists'.1 hinside.1
      exact .destination name hlabel (by simpa using hinside.2)
  · next hroot hobject hproperty hrelationship hvalue hdestination =>
    cases h
    exact .passed ⟨hroot, hobject, hrelationship, fun name => absurd name hproperty,
      fun name => absurd name hvalue, fun name => absurd name hdestination⟩

theorem Opens.openTag {r r' : Reading} {tag : Tag} {empty : Bool} (h : Opens r tag empty r')
    (position : Nat) : r.openTag tag empty position = .ok r' := by
  unfold Reading.openTag
  cases h with
  | root name given valid =>
    rw [name]
    exact openRoot_eq_ok_iff.2 ⟨_, _, given, valid, rfl⟩
  | object name inside free hclass hid valid full =>
    rw [name]
    exact openObject_eq_ok_iff.2 ⟨inside, free, _, _, _, hclass, hid, valid, by rw [full]; rfl⟩
  | emptyObject name inside free hclass hid valid bare =>
    rw [name]
    exact openObject_eq_ok_iff.2 ⟨inside, free, _, _, _, hclass, hid, valid, by rw [bare]; rfl⟩
  | property name inside given =>
    rw [name]
    show openProperty r tag position = _
    unfold openProperty
    rw [if_pos (by simp [inside]), required_eq_ok_iff.2 given, ok_bind]
  | relationship name inside given full =>
    rw [name]
    exact openRelationship_eq_ok_iff.2 ⟨_, _, given, inside, by rw [full]; rfl⟩
  | emptyRelationship name inside given bare =>
    rw [name]
    exact openRelationship_eq_ok_iff.2 ⟨_, _, given, inside, by rw [bare]; rfl⟩
  | value name inside full =>
    rw [name]
    simp [inside, full]
  | emptyValue name inside bare =>
    rw [name]
    simp [inside, bare]
  | destination name inside full =>
    rw [name]
    simp [inside, full]
  | passed h =>
    split
    · next name => exact absurd name h.notRoot
    · next name => exact absurd name h.notObject
    · next name =>
      unfold openProperty
      rw [if_neg (by simp [h.property name])]
    · next name => exact absurd name h.notRelationship
    · next name => simp [h.value name]
    · next name => rw [if_pos (by simpa using h.destination name)]
    · rfl

theorem openTag_eq_ok_iff {r r' : Reading} {tag : Tag} {empty : Bool} {position : Nat} :
    r.openTag tag empty position = .ok r' ↔ Opens r tag empty r' :=
  ⟨opens_of_openTag, fun h => h.openTag position⟩

/-! ## End tags -/

/-- The state with an id for the relationship that is open, and nothing left to collect. -/
def take (r : Reading) (id : ObjectId) : Reading :=
  { r with
    slot := .ignored
    text := []
    current := match r.current, r.relationship with
      | some o, some label => some (o.pushEdge label id)
      | current, _ => current }

/-- What an end tag can do. -/
inductive Closes (r : Reading) (name : List Char) : Reading → Prop
  | value (named : String.ofList name = "value") (filled : r.slot = .value) :
    Closes r name r.endValue
  | destination {id : ObjectId} (named : String.ofList name = "destination")
    (filled : r.slot = .destination)
    (valid : ObjectId.ofString? (String.ofList (trimChars r.text)) = .ok id) :
    Closes r name (r.take id)
  | root (named : String.ofList name = "objects") : Closes r name { r with closedRoot := true }
  | property (named : String.ofList name = "property") : Closes r name { r with property := none }
  | relationship (named : String.ofList name = "relationship") :
    Closes r name { r with relationship := none }
  | object {o : Object} (named : String.ofList name = "object") (inside : r.current = some o) :
    Closes r name { r with objects := r.objects ++ [o], current := none }
  | passed (notRoot : String.ofList name ≠ "objects")
    (notProperty : String.ofList name ≠ "property")
    (notRelationship : String.ofList name ≠ "relationship")
    (notObject : String.ofList name ≠ "object")
    (value : String.ofList name = "value" → r.slot ≠ .value)
    (destination : String.ofList name = "destination" → r.slot ≠ .destination) :
    Closes r name r

theorem endDestination_eq_ok_iff {r r' : Reading} :
    r.endDestination = .ok r' ↔
      ∃ id, ObjectId.ofString? (String.ofList (trimChars r.text)) = .ok id ∧ r' = r.take id := by
  have htake : ∀ id, (match r.current, r.relationship with
      | some o, some label =>
        Except.ok { r with slot := .ignored, text := [], current := o.pushEdge label id }
      | _, _ => Except.ok { r with slot := .ignored, text := [] }) =
        (Except.ok (r.take id) : Except Error Reading) := by
    intro id
    unfold take
    cases r.current with
    | none => rfl
    | some o => cases r.relationship <;> rfl
  unfold endDestination
  constructor
  · intro h
    obtain ⟨id, hid, h⟩ := bind_eq_ok.1 h
    exact ⟨id, checked_eq_ok_iff.1 hid, (Except.ok.inj ((htake id).symm.trans h)).symm⟩
  · rintro ⟨id, hid, rfl⟩
    rw [checked_eq_ok_iff.2 hid, ok_bind]
    exact htake id

theorem closes_of_closeTag {r r' : Reading} {name : List Char} {position : Nat}
    (h : r.closeTag name position = .ok r') : Closes r name r' := by
  unfold closeTag at h
  split at h
  · next named =>
    by_cases hslot : r.slot = .value
    · rw [if_pos hslot] at h
      cases h
      exact .value named hslot
    · rw [if_neg hslot] at h
      cases h
      exact .passed (by simp [named]) (by simp [named]) (by simp [named]) (by simp [named])
        (fun _ => hslot) (by simp [named])
  · next named =>
    by_cases hslot : r.slot = .destination
    · rw [if_pos hslot] at h
      obtain ⟨id, hid, rfl⟩ := endDestination_eq_ok_iff.1 h
      exact .destination named hslot hid
    · rw [if_neg hslot] at h
      cases h
      exact .passed (by simp [named]) (by simp [named]) (by simp [named]) (by simp [named])
        (by simp [named]) (fun _ => hslot)
  · next named =>
    cases h
    exact .root named
  · next named =>
    cases h
    exact .property named
  · next named =>
    cases h
    exact .relationship named
  · next named =>
    cases hcurrent : r.current with
    | none =>
      rw [hcurrent] at h
      cases h
    | some o =>
      rw [hcurrent] at h
      cases h
      exact .object named hcurrent
  · next hvalue hdestination hroot hproperty hrelationship hobject =>
    cases h
    exact .passed hroot hproperty hrelationship hobject (fun named => absurd named hvalue)
      (fun named => absurd named hdestination)

theorem Closes.closeTag {r r' : Reading} {name : List Char} (h : Closes r name r')
    (position : Nat) : r.closeTag name position = .ok r' := by
  unfold Reading.closeTag
  cases h with
  | value named filled =>
    rw [named]
    exact congrArg Except.ok (if_pos filled)
  | destination named filled valid =>
    rw [named]
    exact (if_pos filled).trans (endDestination_eq_ok_iff.2 ⟨_, valid, rfl⟩)
  | root named =>
    rw [named]
    rfl
  | property named =>
    rw [named]
    rfl
  | relationship named =>
    rw [named]
    rfl
  | object named inside =>
    rw [named]
    simp [inside]
  | passed notRoot notProperty notRelationship notObject value destination =>
    split
    · next named => rw [if_neg (value named)]
    · next named => rw [if_neg (destination named)]
    · next named => exact absurd named notRoot
    · next named => exact absurd named notProperty
    · next named => exact absurd named notRelationship
    · next named => exact absurd named notObject
    · rfl

theorem closeTag_eq_ok_iff {r r' : Reading} {name : List Char} {position : Nat} :
    r.closeTag name position = .ok r' ↔ Closes r name r' :=
  ⟨closes_of_closeTag, fun h => h.closeTag position⟩

/-! ## Events -/

/-- What an event does to the state. -/
def Moves (r : Reading) : Event → Reading → Prop
  | .start tag, r' => Opens r tag false r'
  | .empty tag, r' => Opens r tag true r'
  | .finish name, r' => Closes r name r'
  | .text raw, r' => r.addText raw = .ok r'
  | .cdata content, r' => r' = r.addLiteral content
  | .fault _, _ => False

theorem step_eq_ok_iff {r r' : Reading} {e : Nat × Event} : r.step e = .ok r' ↔ r.Moves e.2 r' := by
  obtain ⟨position, e⟩ := e
  cases e with
  | start tag => exact openTag_eq_ok_iff
  | empty tag => exact openTag_eq_ok_iff
  | finish name => exact closeTag_eq_ok_iff
  | text raw => exact Iff.rfl
  | cdata content =>
    exact ⟨fun h => (Except.ok.inj h).symm, fun h => congrArg Except.ok h.symm⟩
  | fault e =>
    constructor
    · intro h
      cases h
    · exact False.elim

theorem Moves.unique {r r₁ r₂ : Reading} {e : Event} (h₁ : r.Moves e r₁) (h₂ : r.Moves e r₂) :
    r₁ = r₂ := by
  have hstep₁ : r.step (0, e) = .ok r₁ := step_eq_ok_iff.2 h₁
  have hstep₂ : r.step (0, e) = .ok r₂ := step_eq_ok_iff.2 h₂
  exact Except.ok.inj (hstep₁.symm.trans hstep₂)

/-- What a sequence of events does to the state. -/
def Runs (r : Reading) : List Event → Reading → Prop
  | [], r' => r' = r
  | e :: es, r' => ∃ r₁, r.Moves e r₁ ∧ r₁.Runs es r'

theorem run_eq_ok_iff {r r' : Reading} {es : List (Nat × Event)} :
    r.run es = .ok r' ↔ r.Runs (unplaced es) r' := by
  induction es generalizing r with
  | nil => exact ⟨fun h => (Except.ok.inj h).symm, fun h => congrArg Except.ok h.symm⟩
  | cons e es ih =>
    unfold run
    constructor
    · intro h
      cases hstep : r.step e with
      | error e' =>
        rw [hstep] at h
        cases h
      | ok r₁ =>
        rw [hstep] at h
        exact ⟨r₁, step_eq_ok_iff.1 hstep, ih.1 h⟩
    · rintro ⟨r₁, hmove, hrun⟩
      rw [step_eq_ok_iff.2 hmove]
      exact ih.2 hrun

theorem run_append {r r₁ : Reading} {es : List (Nat × Event)} (h : r.run es = .ok r₁)
    (fs : List (Nat × Event)) : r.run (es ++ fs) = r₁.run fs := by
  induction es generalizing r with
  | nil =>
    cases h
    rfl
  | cons e es ih =>
    rw [run] at h
    rw [List.cons_append, run]
    cases hstep : r.step e with
    | error e' =>
      rw [hstep] at h
      cases h
    | ok r₂ =>
      rw [hstep] at h
      exact ih h

theorem runs_append_iff {r r' : Reading} {es fs : List Event} :
    r.Runs (es ++ fs) r' ↔ ∃ r₁, r.Runs es r₁ ∧ r₁.Runs fs r' := by
  induction es generalizing r with
  | nil =>
    constructor
    · intro h
      exact ⟨r, rfl, h⟩
    · rintro ⟨_, rfl, h⟩
      exact h
  | cons e es ih =>
    constructor
    · rintro ⟨r₁, hmove, h⟩
      obtain ⟨r₂, hfirst, hsecond⟩ := ih.1 h
      exact ⟨r₂, ⟨r₁, hmove, hfirst⟩, hsecond⟩
    · rintro ⟨r₂, ⟨r₁, hmove, hfirst⟩, hsecond⟩
      exact ⟨r₁, hmove, ih.2 ⟨r₂, hfirst, hsecond⟩⟩

theorem Runs.append {r r₁ r₂ : Reading} {es fs : List Event} (h₁ : r.Runs es r₁)
    (h₂ : r₁.Runs fs r₂) : r.Runs (es ++ fs) r₂ :=
  runs_append_iff.2 ⟨r₁, h₁, h₂⟩

theorem Runs.unique {r r₁ r₂ : Reading} {es : List Event} (h₁ : r.Runs es r₁)
    (h₂ : r.Runs es r₂) : r₁ = r₂ := by
  induction es generalizing r with
  | nil => exact h₁.trans h₂.symm
  | cons e es ih =>
    obtain ⟨s₁, hmove₁, h₁⟩ := h₁
    obtain ⟨s₂, hmove₂, h₂⟩ := h₂
    obtain rfl := hmove₁.unique hmove₂
    exact ih h₁ h₂

/-- What every event keeps is kept by a sequence of them. -/
theorem Runs.keeps {P : Reading → Prop}
    (hmoves : ∀ {r r' : Reading} {e : Event}, r.Moves e r' → P r → P r') {r r' : Reading}
    {es : List Event} (h : r.Runs es r') (hr : P r) : P r' := by
  induction es generalizing r with
  | nil =>
    cases h
    exact hr
  | cons e es ih =>
    obtain ⟨r₁, hmove, hrun⟩ := h
    exact ih hrun (hmoves hmove hr)

/-! ## Texts -/

/-- A state that can be the end of a text, with the document it has read. -/
structure Completes (r : Reading) (d : Document) : Prop where
  model : r.model = some d.model
  closed : r.current = none
  closedRoot : r.closedRoot = true
  objects : r.objects = d.objects

theorem finish_eq_ok_iff {r : Reading} {d : Document} {position : Nat} :
    r.finish position = .ok d ↔ r.Completes d := by
  unfold finish
  constructor
  · intro h
    split at h
    · cases h
    next model hmodel =>
    split at h
    · cases h
    next hcurrent =>
    split at h
    · cases h
    next hclosed =>
    cases h
    exact ⟨hmodel, by simpa using hcurrent, by simpa using hclosed, rfl⟩
  · intro h
    rw [h.model]
    simp [h.closed, h.closedRoot, h.objects]

end Reading

theorem parse_eq_ok_iff {s : String} {d : Document} :
    parse s = .ok d ↔
      ∃ r, Reading.Runs {} (eventsIn [] (withoutMark s.toList)) r ∧ r.Completes d := by
  unfold parse ofEvents?
  rw [← unplaced_events]
  constructor
  · intro h
    cases hrun : Reading.run {} (events s.toList) with
    | error e =>
      rw [hrun] at h
      cases h
    | ok r =>
      rw [hrun] at h
      exact ⟨r, Reading.run_eq_ok_iff.1 hrun, Reading.finish_eq_ok_iff.1 h⟩
  · rintro ⟨r, hrun, hcomplete⟩
    rw [Reading.run_eq_ok_iff.2 hrun]
    exact Reading.finish_eq_ok_iff.2 hcomplete

end AudioProject.Document
