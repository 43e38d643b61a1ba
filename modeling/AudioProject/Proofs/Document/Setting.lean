import AudioProject.Proofs.Document.Objects

/-
  Reading objects in another setting: behind other objects, under another model, with another
  property open. What events add to the objects depends on the property that is open in front of
  them and on nothing else of the setting (`Runs.amid`); for objects that have a property before
  their first value, not even on that (`Runs.amid_objects`). Between objects the setting is all
  that differs from state to state (`AtRest.amid_setting`).
-/

namespace AudioProject.Markup

/-- A start tag or an empty element with a name. -/
def Event.isTag (name : String) : Event → Bool
  | start tag => String.ofList tag.name = name
  | empty tag => String.ofList tag.name = name
  | _ => false

theorem Event.isTag_of_ne {e : Event} {name other : String} (h : e.isTag name = true)
    (hne : name ≠ other) : e.isTag other = false := by
  cases e with
  | start tag | empty tag =>
    rw [Event.isTag, decide_eq_true_eq] at h
    simp [Event.isTag, h, hne]
  | _ => rfl

end AudioProject.Markup

namespace AudioProject.Document

open Markup Text

/-- The first tag for a property or a value. -/
def firstFilled (es : List Event) : Option Event :=
  es.find? fun e => e.isTag "property" || e.isTag "value"

/-- No value stands in front of the first property. -/
def PropertyFirst (es : List Event) : Prop :=
  (firstFilled es).all (Event.isTag "property") = true

/-- What the rest of a document can have made of a state: the objects in front, the model, whether
the root was closed, and the property that is open. -/
structure Setting where
  done : List Object
  model : Option Model
  closedRoot : Bool
  property : Option String

namespace Reading

/-! ## In another setting -/

/-- The state in another setting. -/
def amid (r : Reading) (c : Setting) : Reading :=
  { r with objects := c.done, model := c.model, closedRoot := c.closedRoot, property := c.property }

theorem endValue_amid {r : Reading} {c : Setting} (h : c.property = r.property) :
    (r.amid c).endValue = r.endValue.amid c := by
  rw [endValue_eq, endValue_eq]
  simp [amid, h]

/-- Whether an event does the same with another property open: the same one is open after all, or
no value is read. -/
def Spared (r : Reading) (property : Option String) (e : Event) : Prop :=
  property = r.property ∨ e.isTag "value" = false ∧ r.slot ≠ .value

/-- Whether the same property is open behind an event: it was open before, or the event opens
one. -/
def Settled (r : Reading) (property : Option String) (e : Event) : Prop :=
  property = r.property ∨ e.isTag "property" = true ∧ r.current.isSome = true

/-- A tag adds the same objects in any setting. -/
theorem Opens.amid {r r' : Reading} {tag : Tag} {empty : Bool} (h : Opens r tag empty r') :
    ∃ new, r'.objects = r.objects ++ new ∧ ∀ c : Setting,
      (c.property = r.property ∨ String.ofList tag.name ≠ "value") →
      ∃ c' : Setting, c'.done = c.done ++ new ∧ Opens (r.amid c) tag empty (r'.amid c') ∧
        (c.property = r.property ∨
            String.ofList tag.name = "property" ∧ r.current.isSome = true →
          c'.property = r'.property) := by
  have hname : ∀ {name : String} {property : Option String}, String.ofList tag.name = name →
      name ≠ "property" →
      property = r.property ∨ String.ofList tag.name = "property" ∧ r.current.isSome = true →
      property = r.property := by
    intro name property hname hne hsettled
    exact hsettled.elim id fun h => absurd (hname.symm.trans h.1) hne
  cases h with
  | @root text model name given valid =>
    exact ⟨[], by simp, fun c _ => ⟨{ c with model := some model, closedRoot := empty }, by simp,
      .root name given valid, hname name (by simp)⟩⟩
  | object name inside free hclass hid valid full =>
    exact ⟨[], by simp, fun c _ => ⟨c, by simp, .object name inside free hclass hid valid full,
      hname name (by simp)⟩⟩
  | @emptyObject label text id name inside free hclass hid valid bare =>
    exact ⟨_, rfl, fun c _ => ⟨{ c with done := c.done ++ [_] }, rfl,
      .emptyObject name inside free hclass hid valid bare, hname name (by simp)⟩⟩
  | @property label o name inside given =>
    exact ⟨[], by simp, fun c _ => ⟨{ c with property := some label }, by simp,
      .property name inside given, fun _ => rfl⟩⟩
  | relationship name inside given full =>
    exact ⟨[], by simp, fun c _ => ⟨c, by simp, .relationship name inside given full,
      hname name (by simp)⟩⟩
  | emptyRelationship name inside given bare =>
    exact ⟨[], by simp, fun c _ => ⟨c, by simp, .emptyRelationship name inside given bare,
      hname name (by simp)⟩⟩
  | value name inside full =>
    refine ⟨[], by simp [collect], fun c hspared => ?_⟩
    have hsame := hspared.resolve_right fun h => h name
    exact ⟨c, by simp, .value name (hsame.trans inside) full, fun _ => hsame⟩
  | emptyValue name inside bare =>
    refine ⟨[], by simp [endValue_eq], fun c hspared => ?_⟩
    have hsame := hspared.resolve_right fun h => h name
    refine ⟨c, by simp, ?_, fun _ => by rw [endValue_eq]; exact hsame⟩
    rw [← endValue_amid hsame]
    exact .emptyValue name (hsame.trans inside) bare
  | destination name inside full =>
    exact ⟨[], by simp [collect], fun c _ => ⟨c, by simp, .destination name inside full,
      hname name (by simp)⟩⟩
  | passed h =>
    refine ⟨[], by simp, fun c hspared => ⟨c, by simp, .passed ⟨h.notRoot, h.notObject,
      h.notRelationship, h.property, fun name => ?_, h.destination⟩, ?_⟩⟩
    · exact (hspared.resolve_right fun h => h name).trans (h.value name)
    · rintro (hsame | ⟨name, hinside⟩)
      · exact hsame
      · rw [h.property name] at hinside
        cases hinside

/-- An end tag adds the same objects in any setting. -/
theorem Closes.amid {r r' : Reading} {name : List Char} (h : Closes r name r') :
    ∃ new, r'.objects = r.objects ++ new ∧ ∀ c : Setting,
      (c.property = r.property ∨ r.slot ≠ .value) →
      ∃ c' : Setting, c'.done = c.done ++ new ∧ Closes (r.amid c) name (r'.amid c') ∧
        (c.property = r.property → c'.property = r'.property) := by
  cases h with
  | value named filled =>
    refine ⟨[], by simp [endValue_eq], fun c hspared => ?_⟩
    have hsame := hspared.resolve_right fun h => h filled
    refine ⟨c, by simp, ?_, fun _ => by rw [endValue_eq]; exact hsame⟩
    rw [← endValue_amid hsame]
    exact .value named filled
  | destination named filled valid =>
    exact ⟨[], by simp [take], fun c _ => ⟨c, by simp, .destination named filled valid, id⟩⟩
  | root named =>
    exact ⟨[], by simp, fun c _ => ⟨{ c with closedRoot := true }, by simp, .root named, id⟩⟩
  | property named =>
    exact ⟨[], by simp, fun c _ => ⟨{ c with property := none }, by simp, .property named,
      fun _ => rfl⟩⟩
  | relationship named =>
    exact ⟨[], by simp, fun c _ => ⟨c, by simp, .relationship named, id⟩⟩
  | @object o named inside =>
    exact ⟨[o], rfl, fun c _ => ⟨{ c with done := c.done ++ [o] }, rfl, .object named inside, id⟩⟩
  | passed notRoot notProperty notRelationship notObject value destination =>
    exact ⟨[], by simp, fun c _ => ⟨c, by simp,
      .passed notRoot notProperty notRelationship notObject value destination, id⟩⟩

theorem addText_amid {r r' : Reading} {raw : List Char} (h : r.addText raw = .ok r')
    (c : Setting) : (r.amid c).addText raw = .ok (r'.amid c) := by
  unfold addText at h ⊢
  by_cases hslot : r.slot = .ignored
  · rw [if_pos hslot] at h
    cases h
    exact if_pos hslot
  · rw [if_neg hslot] at h
    rw [if_neg (by exact hslot)]
    cases hraw : unescape raw with
    | ok cs =>
      rw [hraw] at h
      cases h
      rfl
    | error e =>
      rw [hraw] at h
      cases h

theorem addLiteral_amid (r : Reading) (content : List Char) (c : Setting) :
    (r.addLiteral content).amid c = (r.amid c).addLiteral content := by
  unfold addLiteral
  by_cases hslot : r.slot = .ignored
  · rw [if_pos hslot, if_pos (by exact hslot)]
  · rw [if_neg hslot, if_neg (by exact hslot)]
    rfl

/-- An event adds the same objects in any setting, if it does not read a value for another
property. -/
theorem Moves.amid {r r' : Reading} {e : Event} (h : r.Moves e r') :
    ∃ new, r'.objects = r.objects ++ new ∧ ∀ c : Setting, r.Spared c.property e →
      ∃ c' : Setting, c'.done = c.done ++ new ∧ (r.amid c).Moves e (r'.amid c') ∧
        (r.Settled c.property e → c'.property = r'.property) := by
  have hopens : ∀ {tag empty}, (∀ name, e.isTag name = decide (String.ofList tag.name = name)) →
      Opens r tag empty r' →
      ∃ new, r'.objects = r.objects ++ new ∧ ∀ c : Setting, r.Spared c.property e →
        ∃ c' : Setting, c'.done = c.done ++ new ∧ Opens (r.amid c) tag empty (r'.amid c') ∧
          (r.Settled c.property e → c'.property = r'.property) := by
    intro tag empty htag hopen
    obtain ⟨new, hnew, hamid⟩ := hopen.amid
    refine ⟨new, hnew, fun c hspared => ?_⟩
    obtain ⟨c', hdone, hopen', hsettled⟩ :=
      hamid c (by simpa [htag] using hspared.imp_right And.left)
    exact ⟨c', hdone, hopen', fun h => hsettled (by simpa [Settled, htag] using h)⟩
  cases e with
  | start tag => exact hopens (fun _ => rfl) h
  | empty tag => exact hopens (fun _ => rfl) h
  | finish name =>
    obtain ⟨new, hnew, hamid⟩ := Closes.amid h
    refine ⟨new, hnew, fun c hspared => ?_⟩
    obtain ⟨c', hdone, hcloses, hsame⟩ := hamid c (hspared.imp_right And.right)
    exact ⟨c', hdone, hcloses, fun h => hsame (by simpa [Settled, Event.isTag] using h)⟩
  | text raw =>
    obtain ⟨cs, rfl, -⟩ := exists_of_addText h
    exact ⟨[], by simp, fun c _ => ⟨c, by simp, addText_amid h c,
      by simp [Settled, Event.isTag]⟩⟩
  | cdata content =>
    obtain ⟨cs, hadd, -⟩ := exists_of_addLiteral r content
    cases h
    refine ⟨[], by simp [hadd], fun c _ => ⟨c, by simp, addLiteral_amid r content c, ?_⟩⟩
    rw [hadd]
    simp [Settled, Event.isTag]
  | fault e => exact h.elim

/-- What events add depends on the property that is open in front of them, and on nothing else of
the setting. -/
theorem Runs.amid {r r' : Reading} {es : List Event} (h : r.Runs es r') :
    ∃ new, r'.objects = r.objects ++ new ∧ ∀ c : Setting, c.property = r.property →
      ∃ c' : Setting, c'.done = c.done ++ new ∧ (r.amid c).Runs es (r'.amid c') ∧
        c'.property = r'.property := by
  induction es generalizing r with
  | nil =>
    cases h
    exact ⟨[], by simp, fun c hc => ⟨c, by simp, rfl, hc⟩⟩
  | cons e es ih =>
    obtain ⟨r₁, hmove, hrun⟩ := h
    obtain ⟨new₁, hnew₁, hamid₁⟩ := hmove.amid
    obtain ⟨new₂, hnew₂, hamid₂⟩ := ih hrun
    refine ⟨new₁ ++ new₂, by rw [hnew₂, hnew₁, List.append_assoc], fun c hc => ?_⟩
    obtain ⟨c₁, hdone₁, hmove₁, hsettled⟩ := hamid₁ c (Or.inl hc)
    obtain ⟨c₂, hdone₂, hrun₂, hsame⟩ := hamid₂ c₁ (hsettled (Or.inl hc))
    exact ⟨c₂, by rw [hdone₂, hdone₁, List.append_assoc], ⟨_, hmove₁, hrun₂⟩, hsame⟩

/-! ## Objects that have a property first -/

theorem Moves.slot {r r' : Reading} {e : Event} (h : r.Moves e r')
    (hvalue : e.isTag "value" = false) (hslot : r.slot ≠ .value) : r'.slot ≠ .value := by
  have hopens : ∀ {tag empty}, Opens r tag empty r' → String.ofList tag.name ≠ "value" →
      r'.slot ≠ .value := by
    intro tag empty hopen hname
    cases hopen with
    | value name | emptyValue name => exact absurd name hname
    | destination => simp [collect]
    | _ => exact hslot
  cases e with
  | start tag => exact hopens h (by simpa [Event.isTag] using hvalue)
  | empty tag => exact hopens h (by simpa [Event.isTag] using hvalue)
  | finish name =>
    cases h with
    | value named filled => exact absurd filled hslot
    | destination => simp [take]
    | _ => exact hslot
  | text raw =>
    obtain ⟨cs, rfl, -⟩ := exists_of_addText h
    exact hslot
  | cdata content =>
    obtain ⟨cs, hadd, -⟩ := exists_of_addLiteral r content
    cases h.trans hadd
    exact hslot
  | fault e => exact h.elim

theorem firstFilled_cons_of_not {e : Event} (hproperty : e.isTag "property" = false)
    (hvalue : e.isTag "value" = false) (es : List Event) :
    firstFilled (e :: es) = firstFilled es :=
  List.find?_cons_of_neg (by simp [hproperty, hvalue])

theorem firstFilled_append (es fs : List Event) :
    firstFilled (es ++ fs) = (firstFilled es).or (firstFilled fs) :=
  List.find?_append

/-- Content of an object that has a property first adds the same in any setting. -/
theorem Runs.amid_content {r r' : Reading} {es : List Event} (h : r.Runs es r')
    (hinside : r.current.isSome = true) (hends : ∀ e ∈ es, ¬ EndsObject e)
    (hslot : r.slot ≠ .value) (hfirst : PropertyFirst es) :
    ∃ new, r'.objects = r.objects ++ new ∧ ∀ c : Setting,
      ∃ c' : Setting, c'.done = c.done ++ new ∧ (r.amid c).Runs es (r'.amid c') ∧
        ((firstFilled es).isSome = true → c'.property = r'.property) := by
  induction es generalizing r with
  | nil =>
    cases h
    exact ⟨[], by simp, fun c => ⟨c, by simp, rfl, by simp [firstFilled]⟩⟩
  | cons e es ih =>
    obtain ⟨r₁, hmove, hrun⟩ := h
    obtain ⟨new₁, hnew₁, hamid₁⟩ := hmove.amid
    by_cases hproperty : e.isTag "property" = true
    · have hvalue : e.isTag "value" = false := Event.isTag_of_ne hproperty (by simp)
      obtain ⟨new₂, hnew₂, hamid₂⟩ := hrun.amid
      refine ⟨new₁ ++ new₂, by rw [hnew₂, hnew₁, List.append_assoc], fun c => ?_⟩
      obtain ⟨c₁, hdone₁, hmove₁, hsettled⟩ := hamid₁ c (Or.inr ⟨hvalue, hslot⟩)
      obtain ⟨c₂, hdone₂, hrun₂, hsame⟩ := hamid₂ c₁ (hsettled (Or.inr ⟨hproperty, hinside⟩))
      exact ⟨c₂, by rw [hdone₂, hdone₁, List.append_assoc], ⟨_, hmove₁, hrun₂⟩, fun _ => hsame⟩
    · rw [Bool.not_eq_true] at hproperty
      have hvalue : e.isTag "value" = false := by
        cases hvalue : e.isTag "value" with
        | false => rfl
        | true => simp [PropertyFirst, firstFilled, hvalue, hproperty] at hfirst
      have hskip := firstFilled_cons_of_not hproperty hvalue es
      rw [PropertyFirst, hskip] at hfirst
      obtain ⟨new₂, hnew₂, hamid₂⟩ := ih hrun (hmove.inside hinside (hends e List.mem_cons_self)).1
        (fun e he => hends e (List.mem_cons_of_mem _ he)) (hmove.slot hvalue hslot) hfirst
      refine ⟨new₁ ++ new₂, by rw [hnew₂, hnew₁, List.append_assoc], fun c => ?_⟩
      obtain ⟨c₁, hdone₁, hmove₁, -⟩ := hamid₁ c (Or.inr ⟨hvalue, hslot⟩)
      obtain ⟨c₂, hdone₂, hrun₂, hsame⟩ := hamid₂ c₁
      rw [hskip]
      exact ⟨c₂, by rw [hdone₂, hdone₁, List.append_assoc], ⟨_, hmove₁, hrun₂⟩, hsame⟩

/-- An event between objects that is no tag for a property or a value. -/
theorem Runs.amid_single {r r' : Reading} {e : Event} (h : r.Runs [e] r')
    (hslot : r.slot ≠ .value) (hproperty : e.isTag "property" = false)
    (hvalue : e.isTag "value" = false) :
    ∃ new, r'.objects = r.objects ++ new ∧ ∀ c : Setting,
      ∃ c' : Setting, c'.done = c.done ++ new ∧ (r.amid c).Runs [e] (r'.amid c') ∧
        ((firstFilled [e]).isSome = true → c'.property = r'.property) := by
  obtain ⟨r₁, hmove, rfl⟩ := h
  obtain ⟨new, hnew, hamid⟩ := hmove.amid
  refine ⟨new, hnew, fun c => ?_⟩
  obtain ⟨c', hdone, hmove', -⟩ := hamid c (Or.inr ⟨hvalue, hslot⟩)
  refine ⟨c', hdone, ⟨_, hmove', rfl⟩, ?_⟩
  rw [firstFilled_cons_of_not hproperty hvalue]
  simp [firstFilled]

theorem AtRest.slot_ne_value {r : Reading} (h : r.AtRest) : r.slot ≠ .value := by
  rw [h.slot]
  simp

/-- Objects that have a property first are the same in any setting. -/
theorem Runs.amid_objects {r r' : Reading} {es : List Event} (h : r.Runs es r')
    (hes : Objects es) (hr : r.AtRest) (hfirst : PropertyFirst es) :
    ∃ new, r'.objects = r.objects ++ new ∧ ∀ c : Setting,
      ∃ c' : Setting, c'.done = c.done ++ new ∧ (r.amid c).Runs es (r'.amid c') ∧
        ((firstFilled es).isSome = true → c'.property = r'.property) := by
  induction hes generalizing r r' with
  | nil =>
    cases h
    exact ⟨[], by simp, fun c => ⟨c, by simp, rfl, by simp [firstFilled]⟩⟩
  | text raw => exact h.amid_single hr.slot_ne_value rfl rfl
  | cdata content => exact h.amid_single hr.slot_ne_value rfl rfl
  | empty name =>
    exact h.amid_single hr.slot_ne_value (by simp [Event.isTag, name]) (by simp [Event.isTag, name])
  | @element tag es name content =>
    have hfilled : firstFilled (.start tag :: (es ++ [.finish tag.name])) = firstFilled es := by
      rw [firstFilled_cons_of_not (by simp [Event.isTag, name]) (by simp [Event.isTag, name]),
        firstFilled_append]
      simp [firstFilled, Event.isTag]
    rw [PropertyFirst, hfilled] at hfirst
    obtain ⟨r₁, hstart, h⟩ := h
    obtain ⟨r₂, hcontent, r₃, hfinish, rfl⟩ := runs_append_iff.1 h
    obtain ⟨new₁, hnew₁, hamid₁⟩ := Moves.amid hstart
    obtain ⟨o, rfl⟩ := Opens.of_object hstart name
    obtain ⟨hstays, hends⟩ := Runs.stays content hcontent rfl
    obtain ⟨new₂, hnew₂, hamid₂⟩ :=
      Runs.amid_content hcontent rfl hends hr.slot_ne_value hfirst
    have hslot₂ : r₂.slot ≠ .value := by
      rcases hstays.slot with h | h
      · rw [h]
        exact hr.slot_ne_value
      · simp [h]
    obtain ⟨new₃, hnew₃, hamid₃⟩ := Moves.amid hfinish
    refine ⟨new₁ ++ (new₂ ++ new₃), by rw [hnew₃, hnew₂, hnew₁]; simp, fun c => ?_⟩
    obtain ⟨c₁, hdone₁, hstart₁, -⟩ :=
      hamid₁ c (Or.inr ⟨by simp [Event.isTag, name], hr.slot_ne_value⟩)
    obtain ⟨c₂, hdone₂, hcontent₂, hsame₂⟩ := hamid₂ c₁
    obtain ⟨c₃, hdone₃, hfinish₃, hsame₃⟩ := hamid₃ c₂ (Or.inr ⟨rfl, hslot₂⟩)
    refine ⟨c₃, by rw [hdone₃, hdone₂, hdone₁]; simp,
      ⟨_, hstart₁, hcontent₂.append ⟨_, hfinish₃, rfl⟩⟩, ?_⟩
    rw [hfilled]
    exact fun hsome => hsame₃ (Or.inl (hsame₂ hsome))
  | @append es fs first _ ih₁ ih₂ =>
    obtain ⟨r₁, hrun₁, hrun₂⟩ := runs_append_iff.1 h
    rw [PropertyFirst, firstFilled_append] at hfirst
    rw [firstFilled_append]
    cases hfilled : firstFilled es with
    | none =>
      rw [hfilled, Option.none_or] at hfirst
      obtain ⟨new₁, hnew₁, hamid₁⟩ := ih₁ hrun₁ hr (by simp [PropertyFirst, hfilled])
      obtain ⟨new₂, hnew₂, hamid₂⟩ := ih₂ hrun₂ (hrun₁.rests first hr).1 hfirst
      refine ⟨new₁ ++ new₂, by rw [hnew₂, hnew₁, List.append_assoc], fun c => ?_⟩
      obtain ⟨c₁, hdone₁, hrun₁', -⟩ := hamid₁ c
      obtain ⟨c₂, hdone₂, hrun₂', hsame⟩ := hamid₂ c₁
      exact ⟨c₂, by rw [hdone₂, hdone₁, List.append_assoc], hrun₁'.append hrun₂', hsame⟩
    | some e =>
      rw [hfilled, Option.some_or] at hfirst
      obtain ⟨new₁, hnew₁, hamid₁⟩ := ih₁ hrun₁ hr (by rwa [PropertyFirst, hfilled])
      obtain ⟨new₂, hnew₂, hamid₂⟩ := hrun₂.amid
      refine ⟨new₁ ++ new₂, by rw [hnew₂, hnew₁, List.append_assoc], fun c => ?_⟩
      obtain ⟨c₁, hdone₁, hrun₁', hsettled⟩ := hamid₁ c
      obtain ⟨c₂, hdone₂, hrun₂', hsame⟩ := hamid₂ c₁ (hsettled (by rw [hfilled]; rfl))
      exact ⟨c₂, by rw [hdone₂, hdone₁, List.append_assoc], hrun₁'.append hrun₂', fun _ => hsame⟩

/-- The setting that a state is in. -/
def setting (r : Reading) : Setting where
  done := r.objects
  model := r.model
  closedRoot := r.closedRoot
  property := r.property

/-- Between objects nothing but the setting differs. -/
theorem AtRest.amid_setting {r s : Reading} (hr : r.AtRest) (hs : s.AtRest) :
    r.amid s.setting = s := by
  have hfree : r.current = s.current := hr.free.trans hs.free.symm
  have hrelationship : r.relationship = s.relationship :=
    hr.relationship.trans hs.relationship.symm
  have hslot : r.slot = s.slot := hr.slot.trans hs.slot.symm
  have htext : r.text = s.text := (hr.tidy hr.slot).trans (hs.tidy hs.slot).symm
  have hsaw : r.sawRoot = s.sawRoot := hr.rooted.1.trans hs.rooted.1.symm
  cases s
  simp only [amid, Reading.setting] at *
  simp [*]

end Reading

end AudioProject.Document
