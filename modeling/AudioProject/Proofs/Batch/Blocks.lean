import Mathlib.Data.List.Perm.Basic
import Mathlib.Logic.Equiv.Basic
import Mathlib.Tactic.SplitIfs

/-
  Numbers dealt out in blocks. Each element of a list gets as many numbers as it is wide, one block
  after the other. If the elements come in another order, a permutation of the numbers moves each
  block as a whole to where its element gets it now, and no number outside of the blocks:
  `exists_moves`. Two neighbours change places by `exchange`, and every order comes of such changes.
-/

namespace AudioProject.Batch

variable {α : Type} {width : α → Nat} {n : Nat} {xs ys zs : List α}

/-- Each element with the first of its numbers, which go on from `n`. -/
def dealt (width : α → Nat) : Nat → List α → List (α × Nat)
  | _, [] => []
  | n, x :: xs => (x, n) :: dealt width (n + width x) xs

/-- How many numbers are dealt out. -/
def total (width : α → Nat) : List α → Nat
  | [] => 0
  | x :: xs => width x + total width xs

theorem total_one (xs : List α) : total (fun _ => 1) xs = xs.length := by
  induction xs with
  | nil => rfl
  | cons x xs ih => rw [total, ih, List.length_cons, Nat.add_comm]

theorem total_perm (h : xs.Perm ys) : total width xs = total width ys := by
  induction h with
  | nil => rfl
  | cons x _ ih => rw [total, total, ih]
  | swap x y xs =>
    simp only [total]
    omega
  | trans _ _ ih ih' => exact ih.trans ih'

theorem map_fst_dealt (width : α → Nat) (n : Nat) (xs : List α) :
    (dealt width n xs).map Prod.fst = xs := by
  induction xs generalizing n with
  | nil => rfl
  | cons x xs ih => rw [dealt, List.map_cons, ih]

theorem map_snd_dealt_one (n : Nat) (xs : List α) :
    (dealt (fun _ => 1) n xs).map Prod.snd = List.range' n xs.length := by
  induction xs generalizing n with
  | nil => rfl
  | cons x xs ih => rw [dealt, List.map_cons, ih, List.length_cons, List.range'_succ]

/-- A block lies between the first number and the last. -/
theorem bounds_of_mem_dealt {p : α × Nat} (h : p ∈ dealt width n xs) :
    n ≤ p.2 ∧ p.2 + width p.1 ≤ n + total width xs := by
  induction xs generalizing n with
  | nil => cases h
  | cons x xs ih =>
    rw [total]
    rcases List.mem_cons.1 h with rfl | h
    · dsimp only
      omega
    · have := ih h
      omega

/-- One block ends before the next one begins. -/
theorem pairwise_dealt (width : α → Nat) (n : Nat) (xs : List α) :
    (dealt width n xs).Pairwise fun p q => p.2 + width p.1 ≤ q.2 := by
  induction xs generalizing n with
  | nil => exact .nil
  | cons x xs ih =>
    exact List.pairwise_cons.2 ⟨fun q hq => (bounds_of_mem_dealt hq).1, ih _⟩

/-! ## Another order -/

/-- A permutation of numbers that leaves all others alone stays among these. -/
theorem inside_of_fixes {f : Equiv.Perm Nat} {m n i : Nat} (h : ∀ i, i < m ∨ n ≤ i → f i = i)
    (hi : m ≤ i ∧ i < n) : m ≤ f i ∧ f i < n := by
  by_contra hout
  have hfixed : f i = i := f.injective (h (f i) (by omega))
  omega

/-- Moves the `a` numbers from `n` on behind the `b` numbers that follow them. -/
def shift (n a b i : Nat) : Nat :=
  if n ≤ i ∧ i < n + a then i + b
  else if n + a ≤ i ∧ i < n + a + b then i - a
  else i

theorem shift_shift (n a b i : Nat) : shift n b a (shift n a b i) = i := by
  unfold shift
  split_ifs <;> omega

/-- Two blocks that follow each other change places. -/
def exchange (n a b : Nat) : Equiv.Perm Nat where
  toFun := shift n a b
  invFun := shift n b a
  left_inv := shift_shift n a b
  right_inv := shift_shift n b a

section Exchange

variable {a b i : Nat}

theorem exchange_first (hlow : n ≤ i) (hhigh : i < n + a) : exchange n a b i = i + b := by
  show shift n a b i = _
  rw [shift, if_pos ⟨hlow, hhigh⟩]

theorem exchange_second (hlow : n + a ≤ i) (hhigh : i < n + a + b) :
    exchange n a b i = i - a := by
  show shift n a b i = _
  rw [shift, if_neg (by omega), if_pos ⟨hlow, hhigh⟩]

theorem exchange_outside (h : i < n ∨ n + a + b ≤ i) : exchange n a b i = i := by
  show shift n a b i = _
  rw [shift, if_neg (by omega), if_neg (by omega)]

end Exchange

/-- A permutation of the numbers moves the blocks of `xs` to those of `ys`. -/
structure Moves (width : α → Nat) (n : Nat) (xs ys : List α) (f : Equiv.Perm Nat) : Prop where
  outside : ∀ i, i < n ∨ n + total width xs ≤ i → f i = i
  whole : ∀ p ∈ dealt width n xs, ∀ j < width p.1, f (p.2 + j) = f p.2 + j
  perm : ((dealt width n xs).map fun p => (p.1, f p.2)).Perm (dealt width n ys)

theorem Moves.cons {f : Equiv.Perm Nat} {x : α} (hx : 0 < width x)
    (h : Moves width (n + width x) xs ys f) : Moves width n (x :: xs) (x :: ys) f where
  outside := by
    intro i hi
    rw [total] at hi
    exact h.outside i (by omega)
  whole := by
    intro p hp j hj
    rcases List.mem_cons.1 hp with rfl | hp
    · dsimp only at hj ⊢
      rw [h.outside (n + j) (by omega), h.outside n (by omega)]
    · exact h.whole p hp j hj
  perm := by
    rw [dealt, dealt, List.map_cons, h.outside n (by omega)]
    exact h.perm.cons _

theorem Moves.trans {f g : Equiv.Perm Nat} (h : Moves width n xs ys f) (h' : Moves width n ys zs g)
    (htotal : total width xs = total width ys) : Moves width n xs zs (f.trans g) where
  outside := by
    intro i hi
    rw [Equiv.trans_apply, h.outside i hi, h'.outside i (htotal ▸ hi)]
  whole := by
    intro p hp j hj
    have hmem : (p.1, f p.2) ∈ dealt width n ys := h.perm.mem_iff.1 (List.mem_map_of_mem hp)
    rw [Equiv.trans_apply, Equiv.trans_apply, h.whole p hp j hj]
    exact h'.whole _ hmem j hj
  perm := by
    have hmap := h.perm.map fun p => (p.1, g p.2)
    rw [List.map_map] at hmap
    exact hmap.trans h'.perm

theorem moves_exchange {x y : α} (hx : 0 < width x) (hy : 0 < width y) (xs : List α) :
    Moves width n (y :: x :: xs) (x :: y :: xs) (exchange n (width y) (width x)) where
  outside := by
    intro i hi
    rw [total, total] at hi
    exact exchange_outside (by omega)
  whole := by
    intro p hp j hj
    simp only [dealt, List.mem_cons] at hp
    rcases hp with rfl | rfl | hp
    · dsimp only at hj ⊢
      rw [exchange_first (by omega) (by omega), exchange_first (by omega) (by omega)]
      omega
    · dsimp only at hj ⊢
      rw [exchange_second (by omega) (by omega), exchange_second (by omega) (by omega)]
      omega
    · have hlow := (bounds_of_mem_dealt hp).1
      rw [exchange_outside (by omega), exchange_outside (by omega)]
  perm := by
    -- the blocks behind the two stay where they are
    have hrest : (dealt width (n + width y + width x) xs).map
        (fun p => (p.1, exchange n (width y) (width x) p.2)) =
        dealt width (n + width x + width y) xs := by
      rw [Nat.add_right_comm n (width x) (width y)]
      refine (List.map_congr_left fun p hp => ?_).trans (List.map_id _)
      rw [exchange_outside (Or.inr (bounds_of_mem_dealt hp).1)]
      rfl
    rw [dealt, dealt, dealt, dealt, List.map_cons, List.map_cons, hrest,
      exchange_first (by omega) (by omega), exchange_second (by omega) (by omega),
      Nat.add_sub_cancel]
    exact List.Perm.swap _ _ _

/-- Where every block has a number, some permutation moves them to any other order. -/
theorem exists_moves (width : α → Nat) (hwidth : ∀ x, 0 < width x) (h : xs.Perm ys) (n : Nat) :
    ∃ f, Moves width n xs ys f := by
  induction h generalizing n with
  | nil => exact ⟨.refl Nat, fun _ _ => rfl, nofun, .refl _⟩
  | cons x _ ih =>
    obtain ⟨f, hf⟩ := ih (n + width x)
    exact ⟨f, hf.cons (hwidth x)⟩
  | swap x y xs => exact ⟨_, moves_exchange (hwidth x) (hwidth y) xs⟩
  | trans hxy _ ih ih' =>
    obtain ⟨f, hf⟩ := ih n
    obtain ⟨g, hg⟩ := ih' n
    exact ⟨_, hf.trans hg (total_perm hxy)⟩

end AudioProject.Batch
