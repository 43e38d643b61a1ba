/-
  Two classes of characters that names and paths are checked against: blanks, which are the
  characters with Unicode's `White_Space` property, and controls, which are its category `Cc`.
-/

namespace AudioProject.Text

def isBlank (c : Char) : Bool :=
  let n := c.toNat
  (0x9 ≤ n && n ≤ 0xd) || n == 0x20 || n == 0x85 || n == 0xa0 || n == 0x1680 ||
    (0x2000 ≤ n && n ≤ 0x200a) || n == 0x2028 || n == 0x2029 || n == 0x202f || n == 0x205f ||
    n == 0x3000

def isControl (c : Char) : Bool :=
  c.toNat < 0x20 || (0x7f ≤ c.toNat && c.toNat ≤ 0x9f)

/-- `xs` without the blanks it begins with. -/
def trimStart (xs : List Char) : List Char := xs.dropWhile isBlank

/-- `xs` without the blanks it begins and ends with. -/
def trimChars (xs : List Char) : List Char :=
  ((trimStart xs).reverse.dropWhile isBlank).reverse

end AudioProject.Text
