import AudioProject.Document.Reading
import AudioProject.Proofs.Action

/-
  Classes that names give. A class with a constructor of its own has a name that leads back to
  it, and a document cannot say otherwise; so every document that was read has classes as names
  give them: `hasNamedClasses_of_parse`.
-/

namespace AudioProject.Document

open Markup

/-- Classes that are given by a name, as in a text. A class of its own never hides behind
`other`. -/
def IsNamedClass (c : ObjectClass) : Prop := ∃ name, c = .ofName name

theorem IsNamedClass.ofName_name {c : ObjectClass} (h : IsNamedClass c) : .ofName c.name = c := by
  obtain ⟨name, rfl⟩ := h
  rw [ObjectClass.name_ofName]

/-- The classes of a document are those that names give. -/
def HasNamedClasses (d : Document) : Prop := ∀ o ∈ d.objects, IsNamedClass o.objectClass

/-! ## Documents that were read -/

/-- The classes of all objects that have been read, the open one included, are those that names
give. -/
structure Reading.HasNamedClasses (r : Reading) : Prop where
  objects : ∀ o ∈ r.objects, IsNamedClass o.objectClass
  current : ∀ o, r.current = some o → IsNamedClass o.objectClass

namespace Reading

/-- A step that closes no object, and leaves the open one its class. -/
theorem HasNamedClasses.of_same {r r' : Reading} (h : r.HasNamedClasses)
    (hobjects : r'.objects = r.objects)
    (hcurrent : ∀ o', r'.current = some o' →
      ∃ o, r.current = some o ∧ o'.objectClass = o.objectClass) : r'.HasNamedClasses where
  objects := hobjects ▸ h.objects
  current := by
    intro o' ho'
    obtain ⟨o, ho, hsame⟩ := hcurrent o' ho'
    exact hsame ▸ h.current o ho

theorem HasNamedClasses.openObject {r r' : Reading} (h : r.HasNamedClasses) {tag : Tag}
    {empty : Bool} {position : Nat} (hopen : r.openObject tag empty position = .ok r') :
    r'.HasNamedClasses := by
  unfold Reading.openObject at hopen
  split at hopen
  · cases hopen
  split at hopen
  · cases hopen
  obtain ⟨name, -, hopen⟩ := bind_eq_ok.1 hopen
  obtain ⟨text, -, hopen⟩ := bind_eq_ok.1 hopen
  obtain ⟨id, -, hopen⟩ := bind_eq_ok.1 hopen
  cases hopen
  split
  · refine ⟨?_, h.current⟩
    intro o ho
    rcases List.mem_append.1 ho with ho | ho
    · exact h.objects o ho
    · rw [List.mem_singleton.1 ho]
      exact ⟨name, rfl⟩
  · refine ⟨h.objects, ?_⟩
    intro o ho
    cases ho
    exact ⟨name, rfl⟩

theorem HasNamedClasses.endValue {r : Reading} (h : r.HasNamedClasses) :
    r.endValue.HasNamedClasses := by
  unfold Reading.endValue
  dsimp only
  split
  · next o name ho _ =>
    refine h.of_same rfl ?_
    intro _ hnot
    cases hnot
    exact ⟨o, ho, rfl⟩
  · exact h.of_same rfl fun o ho => ⟨o, ho, rfl⟩

theorem HasNamedClasses.endDestination {r r' : Reading} (h : r.HasNamedClasses)
    (hend : r.endDestination = .ok r') : r'.HasNamedClasses := by
  unfold Reading.endDestination at hend
  obtain ⟨id, -, hend⟩ := bind_eq_ok.1 hend
  dsimp only at hend
  split at hend
  · next o label ho _ =>
    cases hend
    refine h.of_same rfl ?_
    intro _ hnot
    cases hnot
    exact ⟨o, ho, rfl⟩
  · cases hend
    exact h.of_same rfl fun o ho => ⟨o, ho, rfl⟩

theorem HasNamedClasses.openTag {r r' : Reading} (h : r.HasNamedClasses) {tag : Tag}
    {empty : Bool} {position : Nat} (hopen : r.openTag tag empty position = .ok r') :
    r'.HasNamedClasses := by
  have hsame : ∀ o, r.current = some o →
      ∃ o', r.current = some o' ∧ o.objectClass = o'.objectClass :=
    fun o ho => ⟨o, ho, rfl⟩
  unfold Reading.openTag at hopen
  split at hopen
  · -- the root
    obtain ⟨text, -, hopen⟩ := bind_eq_ok.1 hopen
    obtain ⟨model, -, hopen⟩ := bind_eq_ok.1 hopen
    cases hopen
    exact h.of_same rfl hsame
  · exact h.openObject hopen
  · -- a property
    unfold Reading.openProperty at hopen
    split at hopen
    · obtain ⟨name, -, hopen⟩ := bind_eq_ok.1 hopen
      cases hopen
      exact h.of_same rfl hsame
    · cases hopen
      exact h
  · -- a relationship
    unfold Reading.openRelationship at hopen
    obtain ⟨label, -, hopen⟩ := bind_eq_ok.1 hopen
    split at hopen
    · cases hopen
    · next o ho =>
      cases hopen
      refine h.of_same (by split <;> rfl) ?_
      intro o' ho'
      have hedge : o' = o.setEdge label (o.edge label) := by
        split at ho' <;> exact (Option.some.inj ho').symm
      exact ⟨o, ho, by rw [hedge]; rfl⟩
  · cases hopen
    split
    · exact h
    split
    · exact h.endValue
    · exact h.of_same rfl hsame
  · cases hopen
    split
    · exact h
    · exact h.of_same rfl hsame
  · cases hopen
    exact h

theorem HasNamedClasses.closeTag {r r' : Reading} (h : r.HasNamedClasses) {name : List Char}
    {position : Nat} (hclose : r.closeTag name position = .ok r') : r'.HasNamedClasses := by
  have hsame : ∀ o, r.current = some o →
      ∃ o', r.current = some o' ∧ o.objectClass = o'.objectClass :=
    fun o ho => ⟨o, ho, rfl⟩
  unfold Reading.closeTag at hclose
  split at hclose
  · cases hclose
    split
    · exact h.endValue
    · exact h
  · split at hclose
    · exact h.endDestination hclose
    · cases hclose
      exact h
  · cases hclose
    exact h.of_same rfl hsame
  · cases hclose
    exact h.of_same rfl hsame
  · cases hclose
    exact h.of_same rfl hsame
  · -- an object
    split at hclose
    · cases hclose
    · next o ho =>
      cases hclose
      refine ⟨?_, by simp⟩
      intro o' ho'
      rcases List.mem_append.1 ho' with ho' | ho'
      · exact h.objects o' ho'
      · rw [List.mem_singleton.1 ho']
        exact h.current o ho
  · cases hclose
    exact h

theorem HasNamedClasses.step {r r' : Reading} {e : Nat × Event} (h : r.HasNamedClasses)
    (hstep : r.step e = .ok r') : r'.HasNamedClasses := by
  unfold Reading.step at hstep
  split at hstep
  · exact h.openTag hstep
  · exact h.openTag hstep
  · exact h.closeTag hstep
  · unfold Reading.addText at hstep
    split at hstep
    · cases hstep
      exact h
    split at hstep
    · cases hstep
      exact h.of_same rfl fun o ho => ⟨o, ho, rfl⟩
    · cases hstep
  · cases hstep
    unfold Reading.addLiteral
    split
    · exact h
    · exact h.of_same rfl fun o ho => ⟨o, ho, rfl⟩
  · cases hstep

theorem HasNamedClasses.run {r r' : Reading} {es : List (Nat × Event)} (h : r.HasNamedClasses)
    (hrun : r.run es = .ok r') : r'.HasNamedClasses := by
  induction es generalizing r with
  | nil =>
    cases hrun
    exact h
  | cons e es ih =>
    unfold Reading.run at hrun
    split at hrun
    · next hstep => exact ih (h.step hstep) hrun
    · cases hrun

end Reading

theorem hasNamedClasses_of_parse {s : String} {d : Document} (h : parse s = .ok d) :
    d.HasNamedClasses := by
  unfold parse ofEvents? at h
  split at h
  · next r hrun =>
    have hr : r.HasNamedClasses := Reading.HasNamedClasses.run ⟨by simp, by simp⟩ hrun
    unfold Reading.finish at h
    split at h
    · cases h
    split at h
    · cases h
    split at h
    · cases h
    · cases h
      exact hr.objects
  · cases h

end AudioProject.Document
