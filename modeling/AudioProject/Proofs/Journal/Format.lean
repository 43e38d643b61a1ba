import AudioProject.Journal.Format
import AudioProject.Proofs.Json.RoundTrip

/-
  A journal is read back from its text: every field, and every step in order. Whether a moment
  survives in its stored text is the matter of time stamps, and taken as given for each moment
  that a journal holds.
-/

namespace AudioProject

/-- The moment is read back from its stored text. -/
structure Instant.Survives (t : Instant) : Prop where
  of_stored : Instant.ofString? t.stored = some t

instance (t : Instant) : Decidable t.Survives :=
  decidable_of_iff (Instant.ofString? t.stored = some t) ⟨.mk, Instant.Survives.of_stored⟩

namespace Journal

/-! ## Steps -/

theorem Deed.ofJson?_toJson (d : Deed) : Deed.ofJson? d.toJson = some d := by
  cases d with
  | objectWrite className id path =>
    have hid : ObjectId.ofString? id.text = .ok id := (ObjectId.ofString?_eq_ok_iff _ _).2 rfl
    simp [Deed.toJson, Deed.fields, Deed.typeName, Deed.ofJson?, Deed.ofFields?, Json.record?, hid]
  | mediaCopy source dest =>
    simp [Deed.toJson, Deed.fields, Deed.typeName, Deed.ofJson?, Deed.ofFields?, Json.record?]
  | checkpoint name =>
    simp [Deed.toJson, Deed.fields, Deed.typeName, Deed.ofJson?, Deed.ofFields?, Json.record?]

theorem instant?_stored {t : Instant} (h : t.Survives) : instant? (.str t.stored) = some t := by
  rw [instant?, Json.str?, Option.bind_some, h.of_stored]

theorem Step.ofJson?_toJson {s : Step} (h : s.time.Survives) : Step.ofJson? s.toJson = some s := by
  have htime := instant?_stored h
  simp [Step.toJson, Step.ofJson?, Json.record?, Deed.ofJson?_toJson, htime]

theorem mapM_ofJson?_toJson {steps : List Step} (h : ∀ s ∈ steps, s.time.Survives) :
    (steps.map Step.toJson).mapM Step.ofJson? = some steps := by
  induction steps with
  | nil => rfl
  | cons s steps ih =>
    rw [List.map_cons, List.mapM_cons, Step.ofJson?_toJson (h s List.mem_cons_self),
      ih fun t ht => h t (List.mem_cons_of_mem _ ht)]
    rfl

/-! ## Journals -/

/-- Every moment in the journal survives in its text. -/
structure Lasting (j : Journal) : Prop where
  started : j.started.Survives
  finished : ∀ t ∈ j.finished?, t.Survives
  steps : ∀ s ∈ j.steps, s.time.Survives

theorem Lasting.record {j : Journal} (h : j.Lasting) (d : Deed) {now : Instant}
    (hnow : now.Survives) : (j.record d now).Lasting where
  started := h.started
  finished := h.finished
  steps := by
    intro s hs
    rcases List.mem_append.1 hs with hs | hs
    · exact h.steps s hs
    · rw [List.mem_singleton.1 hs]
      exact hnow

theorem Lasting.finish {j : Journal} (h : j.Lasting) (p : Phase) {now : Instant}
    (hnow : now.Survives) : (j.finish p now).Lasting where
  started := h.started
  finished := by
    intro t ht
    cases ht
    exact hnow
  steps := h.steps

theorem Phase.ofJson?_name (p : Phase) : Phase.ofJson? (.str p.name) = some p := by
  cases p <;> decide

theorem optionalInstant?_stored {t? : Option Instant} (h : ∀ t ∈ t?, t.Survives) :
    optionalInstant? (some ((t?.map fun t => Json.str t.stored).getD .null)) = some t? := by
  cases t? with
  | none => rfl
  | some t =>
    have htime := instant?_stored (h t rfl)
    simp [optionalInstant?, htime]

theorem ofJson?_toJson {j : Journal} (h : j.Lasting) : ofJson? j.toJson = some j := by
  have hstarted := instant?_stored h.started
  have hfinished := optionalInstant?_stored h.finished
  have hsteps := mapM_ofJson?_toJson h.steps
  have hphase := Phase.ofJson?_name j.phase
  simp [toJson, ofJson?, Json.record?, hstarted, hfinished, hsteps, hphase]

/-! ## Texts -/

theorem Deed.readable_toJson (d : Deed) : d.toJson.Readable := by
  cases d <;> simp [Deed.toJson, Deed.fields, Json.Readable, Json.ReadableMembers]

theorem readableItems_steps (steps : List Step) : Json.ReadableItems (steps.map Step.toJson) := by
  induction steps with
  | nil => exact trivial
  | cons s steps ih => exact ⟨⟨s.deed.readable_toJson, trivial, trivial⟩, ih⟩

theorem readable_toJson (j : Journal) : j.toJson.Readable := by
  have hsteps := readableItems_steps j.steps
  cases h : j.finished? <;>
    simp [toJson, Json.Readable, Json.ReadableMembers, hsteps, h]

/-- A journal is read back from its text. -/
theorem ofText?_text {j : Journal} (h : j.Lasting) : ofText? j.text = some j := by
  rw [ofText?, text, Json.parse?_pretty j.readable_toJson, Option.bind_some, ofJson?_toJson h]

/-- Whatever the time stamps come to, a journal that is read from the text has its phase. -/
theorem phase_of_ofText? {j j' : Journal} (h : ofText? j.text = some j') : j'.phase = j.phase := by
  rw [ofText?, text, Json.parse?_pretty j.readable_toJson, Option.bind_some] at h
  have hphase := Phase.ofJson?_name j.phase
  simp [toJson, ofJson?, Json.record?, hphase, Option.bind_eq_some_iff] at h
  obtain ⟨_, -, _, -, _, -, rfl⟩ := h
  rfl

end Journal

end AudioProject
