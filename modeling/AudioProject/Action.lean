/-
  Actions on a state that may fail. What an action changed before it failed stays changed, as
  it does on a disk.
-/

namespace AudioProject

abbrev Action (σ ε α : Type) := EStateM ε σ α

namespace Action

variable {σ τ ε ε' α : Type}

/-- An action on a part of the state, with its errors in another form. -/
def within (get : σ → τ) (set : σ → τ → σ) (wrap : ε → ε') (x : Action τ ε α) :
    Action σ ε' α := fun s =>
  match x (get s) with
  | .ok a t => .ok a (set s t)
  | .error e t => .error (wrap e) (set s t)

/-- The same action with its errors in another form. -/
def wrapping (wrap : ε → ε') (x : Action σ ε α) : Action σ ε' α := fun s =>
  match x s with
  | .ok a t => .ok a t
  | .error e t => .error (wrap e) t

/-- The outcome of an action as a value; it goes on after an error. -/
def outcome (x : Action σ ε α) : Action σ ε' (Except ε α) := fun s =>
  match x s with
  | .ok a t => .ok (.ok a) t
  | .error e t => .ok (.error e) t

/-- A computation that reads the state and may fail. -/
def reading (f : σ → Except ε α) : Action σ ε α := fun s =>
  match f s with
  | .ok a => .ok a s
  | .error e => .error e s

/-- A change that may fail, and then changes nothing. -/
def changing (f : σ → Except ε σ) : Action σ ε Unit := fun s =>
  match f s with
  | .ok t => .ok () t
  | .error e => .error e s

end Action

end AudioProject
