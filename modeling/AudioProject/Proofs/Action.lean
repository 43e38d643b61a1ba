import AudioProject.Action

/-
  How results of checks and of actions come about. `bind_eq_ok` takes a check apart that passed,
  `Action.bind_eq_ok` and `Action.bind_eq_error` an action by its result. What holds between the
  states before and after an action, failed or not, is said with `Action.after`.
-/

namespace AudioProject

/-! ## Checks -/

section Checks

variable {ε α β : Type}

theorem ok_bind (a : α) (f : α → Except ε β) : (Except.ok a >>= f) = f a := rfl

theorem mapError_ok {ε' : Type} (f : ε → ε') (a : α) : (Except.ok a).mapError f = .ok a := rfl

/-- Two checks in a row pass only if both do. -/
theorem bind_eq_ok {x : Except ε α} {f : α → Except ε β} {b : β} :
    (x >>= f) = .ok b ↔ ∃ a, x = .ok a ∧ f a = .ok b := by
  cases x with
  | ok a =>
    constructor
    · intro h
      exact ⟨a, rfl, h⟩
    · intro h'
      obtain ⟨_, ⟨⟩, h⟩ := h'
      exact h
  | error e =>
    constructor
    · intro h
      cases h
    · intro h'
      obtain ⟨_, ⟨⟩, _⟩ := h'

end Checks

/-! ## Actions -/

namespace Action

variable {σ τ ε ε' α β : Type}

/-- The state after an action, whether it failed or not. -/
def after (x : Action σ ε α) (s : σ) : σ :=
  match x s with
  | .ok _ t => t
  | .error _ t => t

theorem after_of_ok {x : Action σ ε α} {s t : σ} {a : α} (h : x s = .ok a t) : x.after s = t := by
  unfold after
  rw [h]

theorem after_of_error {x : Action σ ε α} {s t : σ} {e : ε} (h : x s = .error e t) :
    x.after s = t := by
  unfold after
  rw [h]

/-- Whether an action has come through, by its result. -/
def isOk : EStateM.Result ε σ α → Bool
  | .ok _ _ => true
  | .error _ _ => false

theorem isOk_iff {r : EStateM.Result ε σ α} : isOk r = true ↔ ∃ a t, r = .ok a t := by
  cases r <;> simp [isOk]

theorem bind_of_ok {x : Action σ ε α} {s t : σ} {a : α} (h : x s = .ok a t)
    (f : α → Action σ ε β) : (x >>= f) s = f a t := by
  show EStateM.bind x f s = _
  unfold EStateM.bind
  rw [h]

theorem bind_of_error {x : Action σ ε α} {s t : σ} {e : ε} (h : x s = .error e t)
    (f : α → Action σ ε β) : (x >>= f) s = .error e t := by
  show EStateM.bind x f s = _
  unfold EStateM.bind
  rw [h]

theorem bind_eq_ok {x : Action σ ε α} {f : α → Action σ ε β} {s u : σ} {b : β} :
    (x >>= f) s = .ok b u ↔ ∃ a t, x s = .ok a t ∧ f a t = .ok b u := by
  cases h : x s with
  | ok a t =>
    rw [bind_of_ok h]
    constructor
    · intro hf
      exact ⟨a, t, rfl, hf⟩
    · intro h'
      obtain ⟨_, _, ⟨⟩, hf⟩ := h'
      exact hf
  | error e t =>
    rw [bind_of_error h]
    constructor
    · intro hf
      cases hf
    · intro h'
      obtain ⟨_, _, ⟨⟩, _⟩ := h'

theorem bind_eq_error {x : Action σ ε α} {f : α → Action σ ε β} {s u : σ} {e : ε} :
    (x >>= f) s = .error e u ↔
      x s = .error e u ∨ ∃ a t, x s = .ok a t ∧ f a t = .error e u := by
  cases h : x s with
  | ok a t =>
    rw [bind_of_ok h]
    constructor
    · intro hf
      exact Or.inr ⟨a, t, rfl, hf⟩
    · intro h'
      rcases h' with ⟨⟨⟩⟩ | ⟨_, _, ⟨⟩, hf⟩
      exact hf
  | error e' t =>
    rw [bind_of_error h]
    constructor
    · intro hnot
      cases hnot
      exact Or.inl rfl
    · intro h'
      rcases h' with ⟨⟨⟩⟩ | ⟨_, _, ⟨⟩, _⟩
      rfl

theorem after_bind_of_ok {x : Action σ ε α} {s t : σ} {a : α} (h : x s = .ok a t)
    (f : α → Action σ ε β) : (x >>= f).after s = (f a).after t := by
  unfold after
  rw [bind_of_ok h]

/-- What comes after an action does not matter to what it leaves alone. -/
theorem view_after_bind (view : σ → τ) {x : Action σ ε α} {f : α → Action σ ε β}
    (hf : ∀ a t, view ((f a).after t) = view t) (s : σ) :
    view ((x >>= f).after s) = view (x.after s) := by
  cases h : x s with
  | ok a t => rw [after_bind_of_ok h, hf, after_of_ok h]
  | error e t => rw [after_of_error (bind_of_error h f), after_of_error h]

theorem after_bind_of_still {x : Action σ ε α} {f : α → Action σ ε β}
    (hf : ∀ a t, (f a).after t = t) (s : σ) : (x >>= f).after s = x.after s :=
  view_after_bind id hf s

/-- A relation that can be followed from step to step holds across two actions in a row if it
holds across the first, and across the second where the first got that far. -/
theorem after_bind {R : σ → σ → Prop} (trans : ∀ {s t u}, R s t → R t u → R s u)
    {x : Action σ ε α} {f : α → Action σ ε β} {s : σ} (hx : R s (x.after s))
    (hf : ∀ a t, x s = .ok a t → R t ((f a).after t)) : R s ((x >>= f).after s) := by
  cases h : x s with
  | ok a t =>
    rw [after_of_ok h] at hx
    rw [after_bind_of_ok h]
    exact trans hx (hf a t h)
  | error e t =>
    rw [after_of_error (bind_of_error h f)]
    rwa [after_of_error h] at hx

/-- What holds after an action and is kept by what follows holds after both. -/
theorem holds_after_bind {P : σ → Prop} {x : Action σ ε α} {f : α → Action σ ε β} {s : σ}
    (hx : P (x.after s)) (hf : ∀ a t, P t → P ((f a).after t)) : P ((x >>= f).after s) := by
  cases h : x s with
  | ok a t =>
    rw [after_of_ok h] at hx
    rw [after_bind_of_ok h]
    exact hf a t hx
  | error e t =>
    rw [after_of_error (bind_of_error h f)]
    rwa [after_of_error h] at hx

@[simp] theorem after_within (get : σ → τ) (set : σ → τ → σ) (wrap : ε → ε')
    (x : Action τ ε α) (s : σ) : (within get set wrap x).after s = set s (x.after (get s)) := by
  unfold after within
  cases x (get s) <;> rfl

@[simp] theorem after_outcome (x : Action σ ε α) (s : σ) :
    (outcome x : Action σ ε' (Except ε α)).after s = x.after s := by
  unfold after outcome
  cases x s <;> rfl

@[simp] theorem after_reading (f : σ → Except ε α) (s : σ) : (reading f).after s = s := by
  unfold after reading
  cases f s <;> rfl

theorem within_eq_ok {get : σ → τ} {set : σ → τ → σ} {wrap : ε → ε'} {x : Action τ ε α}
    {s u : σ} {a : α} :
    within get set wrap x s = .ok a u ↔ ∃ t, x (get s) = .ok a t ∧ u = set s t := by
  unfold within
  cases x (get s) with
  | ok b t =>
    constructor
    · intro h
      cases h
      exact ⟨t, rfl, rfl⟩
    · intro h
      obtain ⟨_, ⟨⟩, rfl⟩ := h
      rfl
  | error e t =>
    constructor
    · intro h
      cases h
    · intro h
      obtain ⟨_, ⟨⟩, _⟩ := h

theorem within_eq_error {get : σ → τ} {set : σ → τ → σ} {wrap : ε → ε'} {x : Action τ ε α}
    {s u : σ} {e : ε'} :
    within get set wrap x s = .error e u ↔
      ∃ e' t, x (get s) = .error e' t ∧ e = wrap e' ∧ u = set s t := by
  unfold within
  cases x (get s) with
  | ok b t =>
    constructor
    · intro h
      cases h
    · intro h
      obtain ⟨_, _, ⟨⟩, _⟩ := h
  | error e t =>
    constructor
    · intro h
      cases h
      exact ⟨e, t, rfl, rfl, rfl⟩
    · intro h
      obtain ⟨_, _, ⟨⟩, rfl, rfl⟩ := h
      rfl

theorem wrapping_eq_ok {wrap : ε → ε'} {x : Action σ ε α} {s t : σ} {a : α} :
    wrapping wrap x s = .ok a t ↔ x s = .ok a t := by
  unfold wrapping
  cases x s with
  | ok b u => simp
  | error e u => simp

theorem wrapping_eq_error {wrap : ε → ε'} {x : Action σ ε α} {s t : σ} {e : ε'} :
    wrapping wrap x s = .error e t ↔ ∃ e', x s = .error e' t ∧ e = wrap e' := by
  unfold wrapping
  cases x s with
  | ok b u => simp
  | error e' u =>
    constructor
    · intro h
      cases h
      exact ⟨e', rfl, rfl⟩
    · intro h
      obtain ⟨_, ⟨⟩, rfl⟩ := h
      rfl

theorem outcome_eq_ok {x : Action σ ε α} {s t : σ} {r : Except ε α} :
    (outcome x : Action σ ε' (Except ε α)) s = .ok r t ↔
      match r with
      | .ok a => x s = .ok a t
      | .error e => x s = .error e t := by
  unfold outcome
  cases x s with
  | ok b u => cases r <;> simp
  | error e u => cases r <;> simp

theorem outcome_ne_error {x : Action σ ε α} {s t : σ} {e : ε'} :
    (outcome x : Action σ ε' (Except ε α)) s ≠ .error e t := by
  unfold outcome
  cases x s with
  | ok b u => simp
  | error e u => simp

theorem reading_eq_ok {f : σ → Except ε α} {s t : σ} {a : α} :
    reading f s = .ok a t ↔ f s = .ok a ∧ t = s := by
  unfold reading
  cases f s with
  | ok b => simp [eq_comm]
  | error e => simp

theorem reading_eq_error {f : σ → Except ε α} {s t : σ} {e : ε} :
    reading f s = .error e t ↔ f s = .error e ∧ t = s := by
  unfold reading
  cases f s with
  | ok b => simp
  | error e => simp [eq_comm]

theorem changing_eq_ok {f : σ → Except ε σ} {s t : σ} {u : Unit} :
    changing f s = .ok u t ↔ f s = .ok t := by
  unfold changing
  cases f s with
  | ok v => simp
  | error e => simp

theorem changing_eq_error {f : σ → Except ε σ} {s t : σ} {e : ε} :
    changing f s = .error e t ↔ f s = .error e ∧ t = s := by
  unfold changing
  cases f s with
  | ok v => simp
  | error e => simp [eq_comm]

end Action

end AudioProject
