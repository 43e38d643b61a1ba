/-
  Offsets into text, counted in bytes of UTF-8, and the few characters that markup takes for
  blanks.
-/

namespace AudioProject.Markup

def byteLength : List Char → Nat
  | [] => 0
  | c :: cs => c.utf8Size + byteLength cs

theorem byteLength_append (xs ys : List Char) :
    byteLength (xs ++ ys) = byteLength xs + byteLength ys := by
  induction xs with
  | nil => simp [byteLength]
  | cons c xs ih => simp [byteLength, ih, Nat.add_assoc]

/-- The first byte of a character, as the character with that number. -/
def firstByte (c : Char) : Char :=
  let n := c.toNat
  if n < 0x80 then c
  else if n < 0x800 then Char.ofNat (0xc0 + n / 0x40)
  else if n < 0x10000 then Char.ofNat (0xe0 + n / 0x1000)
  else Char.ofNat (0xf0 + n / 0x40000)

/-- Space, tab, return and newline. -/
def isMarkupBlank (c : Char) : Bool := c = ' ' || c = '\t' || c = '\r' || c = '\n'

end AudioProject.Markup
