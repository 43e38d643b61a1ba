/-
  Counting what a walk has not seen yet: each new place that it sees lowers the count, so a walk
  that remembers its way comes to an end.
-/

namespace AudioProject

variable {α : Type} [DecidableEq α]

/-- How many of `xs` are not among `seen`. -/
def unseen (xs seen : List α) : Nat := (xs.filter (· ∉ seen)).length

theorem unseen_cons_lt {xs seen : List α} {a : α} (ha : a ∈ xs) (hs : a ∉ seen) :
    unseen xs (a :: seen) < unseen xs seen := by
  unfold unseen
  have mono : ∀ ys : List α,
      (ys.filter (· ∉ a :: seen)).length ≤ (ys.filter (· ∉ seen)).length := by
    intro ys
    rw [← List.countP_eq_length_filter, ← List.countP_eq_length_filter]
    exact List.countP_mono_left fun x _ h => by simp_all
  induction xs with
  | nil => cases ha
  | cons x xs ih =>
    have hm := mono xs
    by_cases hx : x = a
    · subst hx
      simp [hs] at hm ⊢
      omega
    · have h := ih ((List.mem_cons.1 ha).resolve_left (Ne.symm hx))
      by_cases hxs : x ∈ seen
      · simpa [List.filter_cons, hx, hxs] using h
      · simpa [List.filter_cons, hx, hxs] using h

end AudioProject
