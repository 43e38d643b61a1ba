/-
  Binary fractions with 53 significant bits, as double precision has them, in the range where
  quotients of 32-bit numbers lie: no overflow and no gradual underflow.
-/

namespace AudioProject.Decimal

/-- `mantissa · 2 ^ exponent`, with `2 ^ 52 ≤ mantissa < 2 ^ 53`. -/
structure Binary where
  mantissa : Nat
  exponent : Int
  deriving DecidableEq, Repr

/-- `a / b` to the nearest whole number, a half to the even neighbour. -/
def roundDiv (a b : Nat) : Nat :=
  let q := a / b
  let r := a % b
  if 2 * r < b ∨ (2 * r = b ∧ q % 2 = 0) then q else q + 1

/-- `a / b` scaled by `2 ^ -e`, as a pair again. -/
def scaled (a b : Nat) (e : Int) : Nat × Nat :=
  if 0 ≤ e then (a, b * Nat.pow 2 e.toNat) else (a * Nat.pow 2 (-e).toNat, b)

/-- The exponent at which `a / b` has 53 bits before the point. -/
def exponentOf (a b : Nat) : Int :=
  let e : Int := (a.log2 : Int) - b.log2 - 52
  let (n, d) := scaled a b e
  if n < d * Nat.pow 2 52 then e - 1 else e

/-- The binary fraction nearest to `a / b`, for positive numbers. -/
def Binary.ofQuotient (a b : Nat) : Binary :=
  let e := exponentOf a b
  let (n, d) := scaled a b e
  let m := roundDiv n d
  if m = Nat.pow 2 53 then ⟨Nat.pow 2 52, e + 1⟩ else ⟨m, e⟩

end AudioProject.Decimal
