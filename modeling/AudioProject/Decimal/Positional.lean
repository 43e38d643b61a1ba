import AudioProject.Decimal.Shortest

/-
  Decimals in positional notation: all digits, a point where there is a fraction, and never an
  exponent.
-/

namespace AudioProject.Decimal

/-- The digits without the zeros at their end, and how many these were. -/
def stripZeros (ds : List Char) : List Char × Nat :=
  let core := (ds.reverse.dropWhile (· = '0')).reverse
  (core, ds.length - core.length)

/-- The decimal text of `number · 10 ^ exponent`. -/
def positional (x : Digits) : String :=
  let (ds, zeros) := stripZeros (Nat.toDigits 10 x.number)
  let e := x.exponent + zeros
  if ds = [] then "0"
  else if 0 ≤ e then String.ofList (ds ++ List.replicate e.toNat '0')
  else
    let places := (-e).toNat
    let ds := List.replicate (places + 1 - ds.length) '0' ++ ds
    String.ofList (ds.take (ds.length - places) ++ '.' :: ds.drop (ds.length - places))

/-- The text of `a / b` as a double precision number. -/
def quotientText (a b : Nat) : String :=
  if b = 0 then (if a = 0 then "NaN" else "inf")
  else if a = 0 then "0"
  else positional (shortest (.ofQuotient a b))

end AudioProject.Decimal
