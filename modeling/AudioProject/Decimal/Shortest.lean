import AudioProject.Decimal.Binary

/-
  The shortest decimal that stands for a binary fraction: of the decimals that are nearer to it
  than to its neighbours, the one with the fewest digits, and of several the nearest. A decimal
  half way to a neighbour belongs to the one with the even mantissa; of two at the same distance
  the larger is taken.
-/

namespace AudioProject.Decimal

/-- A positive decimal `number · 10 ^ exponent`. -/
structure Digits where
  number : Nat
  exponent : Int
  deriving DecidableEq, Repr

/-- A fraction's own value and the ends of what rounds to it, in quarters of its last place. -/
structure Interval where
  low : Nat
  value : Nat
  high : Nat
  /-- Whether the ends belong to it. -/
  closed : Bool

def Binary.interval (x : Binary) : Interval where
  low := if x.mantissa = Nat.pow 2 52 then 4 * x.mantissa - 1 else 4 * x.mantissa - 2
  value := 4 * x.mantissa
  high := 4 * x.mantissa + 2
  closed := x.mantissa % 2 = 0

/-- Quarters of the last place of `x` against units of `10 ^ k`: a quarter is `first / second`
units. -/
def unitRatio (x : Binary) (k : Int) : Nat × Nat :=
  let q := x.exponent - 2
  (Nat.pow 2 q.toNat * Nat.pow 10 (-k).toNat, Nat.pow 10 k.toNat * Nat.pow 2 (-q).toNat)

/-- Whether `d` units lie in the interval. -/
def Interval.holds (i : Interval) (ratio : Nat × Nat) (d : Nat) : Bool :=
  let here := d * ratio.2
  let low := i.low * ratio.1
  let high := i.high * ratio.1
  if i.closed then low ≤ here && here ≤ high else low < here && here < high

/-- The multiple of `10 ^ k` that stands for `x`, if there is one. -/
def onGrid? (x : Binary) (k : Int) : Option Nat :=
  let i := x.interval
  let ratio := unitRatio x k
  let value := i.value * ratio.1
  let d := value / ratio.2
  match i.holds ratio d, i.holds ratio (d + 1) with
  | true, true =>
    if value - d * ratio.2 < (d + 1) * ratio.2 - value then some d else some (d + 1)
  | true, false => some d
  | false, true => some (d + 1)
  | false, false => none

/-- The first grid from `10 ^ k` down that holds a decimal for `x`, among `n` grids. -/
def firstGrid (x : Binary) (k : Int) : Nat → Digits
  | 0 => ⟨(x.interval.value * (unitRatio x k).1) / (unitRatio x k).2, k⟩
  | n + 1 =>
    match onGrid? x k with
    | some d => ⟨d, k⟩
    | none => firstGrid x (k - 1) n

/-- A power of ten that is not below any decimal digit of `x`. -/
def topExponent (x : Binary) : Int := (x.exponent + 53) * 30103 / 100000 + 1

/-- Of the decimals for `x`, the one on the coarsest grid. -/
def shortest (x : Binary) : Digits := firstGrid x (topExponent x) 24

end AudioProject.Decimal
