import AudioProject.Json

/-
  Writing JSON: with two spaces of indent for each level, or without any blanks.
-/

namespace AudioProject.Json

def hexDigit (n : Nat) : Char := Nat.digitChar (n % 16)

/-- A character inside quotes. Only the quote, the backslash and controls are escaped. -/
def stringChar (c : Char) : List Char :=
  if c = '"' then ['\\', '"']
  else if c = '\\' then ['\\', '\\']
  else if c = '\x08' then ['\\', 'b']
  else if c = '\x0c' then ['\\', 'f']
  else if c = '\n' then ['\\', 'n']
  else if c = '\r' then ['\\', 'r']
  else if c = '\t' then ['\\', 't']
  else if c.toNat < 0x20 then ['\\', 'u', '0', '0', hexDigit (c.toNat / 16), hexDigit c.toNat]
  else [c]

def string (s : String) : String := String.ofList ('"' :: s.toList.flatMap stringChar ++ ['"'])

def newline (depth : Nat) : String := "\n" ++ String.ofList (List.replicate (2 * depth) ' ')

/-- Items in brackets, each on a line of its own. -/
def block (first last : String) (depth : Nat) (items : List String) : String :=
  if items.isEmpty then first ++ last
  else
    first ++ newline (depth + 1) ++ (("," ++ newline (depth + 1)).intercalate items) ++
      newline depth ++ last

mutual

def prettyAt (depth : Nat) : Json → String
  | null => "null"
  | bool b => if b then "true" else "false"
  | num t => t
  | str s => string s
  | arr xs => block "[" "]" depth (prettyItems (depth + 1) xs)
  | obj ms => block "\x7b" "\x7d" depth (prettyMembers (depth + 1) ms)

def prettyItems (depth : Nat) : List Json → List String
  | [] => []
  | x :: xs => prettyAt depth x :: prettyItems depth xs

def prettyMembers (depth : Nat) : List (String × Json) → List String
  | [] => []
  | (k, v) :: ms => (string k ++ ": " ++ prettyAt depth v) :: prettyMembers depth ms

end

def pretty (j : Json) : String := prettyAt 0 j

mutual

def compact : Json → String
  | null => "null"
  | bool b => if b then "true" else "false"
  | num t => t
  | str s => string s
  | arr xs => "[" ++ ",".intercalate (compactItems xs) ++ "]"
  | obj ms => "\x7b" ++ ",".intercalate (compactMembers ms) ++ "\x7d"

def compactItems : List Json → List String
  | [] => []
  | x :: xs => compact x :: compactItems xs

def compactMembers : List (String × Json) → List String
  | [] => []
  | (k, v) :: ms => (string k ++ ":" ++ compact v) :: compactMembers ms

end

end AudioProject.Json
