import AudioProject.Text.Unprintable

/-
  Text between double quotes, as messages show it. The quote and the backslash are written
  with a backslash before them, NUL, tab, return and newline by their letters, and each other
  unprintable character by its code point in hexadecimal.
-/

namespace AudioProject.Text

/-- The digits of `n` in lower-case hexadecimal, without padding. -/
def hexDigits (n : Nat) : List Char := Nat.toDigits 16 n

def quotedChar (c : Char) : List Char :=
  if c = '"' then ['\\', '"']
  else if c = '\\' then ['\\', '\\']
  else if c = '\x00' then ['\\', '0']
  else if c = '\t' then ['\\', 't']
  else if c = '\r' then ['\\', 'r']
  else if c = '\n' then ['\\', 'n']
  else if isUnprintable c then ['\\', 'u', '\x7b'] ++ hexDigits c.toNat ++ ['\x7d']
  else [c]

def quoted (s : String) : String :=
  String.ofList ('"' :: s.toList.flatMap quotedChar ++ ['"'])

end AudioProject.Text
