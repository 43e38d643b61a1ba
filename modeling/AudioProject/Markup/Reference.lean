import AudioProject.Markup.Bytes
import AudioProject.Markup.Fault

/-
  References in character data and attribute values. `escape` writes the five characters that
  have a name of their own by that name; `unescape` reads names and character numbers, and gives
  back what was escaped.
-/

namespace AudioProject.Markup

def escapeChar (c : Char) : List Char :=
  if c = '<' then ['&', 'l', 't', ';']
  else if c = '>' then ['&', 'g', 't', ';']
  else if c = '&' then ['&', 'a', 'm', 'p', ';']
  else if c = '\'' then ['&', 'a', 'p', 'o', 's', ';']
  else if c = '"' then ['&', 'q', 'u', 'o', 't', ';']
  else [c]

def escape (cs : List Char) : List Char := cs.flatMap escapeChar

/-- The characters that have a name. -/
def named? (name : List Char) : Option Char :=
  if name = ['l', 't'] then some '<'
  else if name = ['g', 't'] then some '>'
  else if name = ['a', 'm', 'p'] then some '&'
  else if name = ['a', 'p', 'o', 's'] then some '\''
  else if name = ['q', 'u', 'o', 't'] then some '"'
  else none

def hexDigit? (c : Char) : Option Nat :=
  if c.isDigit then some (c.toNat - '0'.toNat)
  else if 'a' ≤ c ∧ c ≤ 'f' then some (c.toNat - 'a'.toNat + 10)
  else if 'A' ≤ c ∧ c ≤ 'F' then some (c.toNat - 'A'.toNat + 10)
  else none

/-- The number that hexadecimal digits write, 0 for none. -/
def hexNumber (n : Nat) : List Char → Except ReferenceFault Nat
  | [] => .ok n
  | c :: cs =>
    match hexDigit? c with
    | some d => hexNumber (16 * n + d) cs
    | none => .error (.notHexDigit (firstByte c))

/-- The number that decimal digits write, 0 for none. -/
def decimalNumber (n : Nat) : List Char → Except ReferenceFault Nat
  | [] => .ok n
  | c :: cs =>
    if c.isDigit then decimalNumber (10 * n + (c.toNat - '0'.toNat)) cs
    else .error (.notDigit (firstByte c))

/-- The number that stands between `&#` and `;`. -/
def charNumber : List Char → Except ReferenceFault Nat
  | 'x' :: cs => if byteLength cs > 6 then .error .tooManyHexDigits else hexNumber 0 cs
  | cs => if byteLength cs > 7 then .error .tooManyDigits else decimalNumber 0 cs

/-- The character that `&name;` stands for, where the ampersand is at byte `first`. -/
def resolve (first : Nat) (name : List Char) : Except ReferenceFault Char :=
  let last := first + 1 + byteLength name
  match name with
  | '#' :: digits =>
    match charNumber digits with
    | .error e => .error e
    | .ok n =>
      if n = 0 then .error (.null first last)
      else if n.isValidChar then .ok (Char.ofNat n)
      else .error (.notCodePoint n)
  | name =>
    match named? name with
    | some c => .ok c
    | none => .error (.unknown (first + 1) last (String.ofList name))

/-- The text with its references resolved. `position` is the offset of `cs` in the whole, which
has `total` bytes; `name` is what was read of a reference that is still open, and where its
ampersand is. -/
def unescapeFrom (total : Nat) :
    Nat → Option (Nat × List Char) → List Char → Except ReferenceFault (List Char)
  | _, none, [] => .ok []
  | _, some (first, _), [] => .error (.unterminated first total)
  | position, none, c :: cs =>
    if c = '&' then unescapeFrom total (position + 1) (some (position, [])) cs
    else
      match unescapeFrom total (position + c.utf8Size) none cs with
      | .error e => .error e
      | .ok ds => .ok (c :: ds)
  | position, some (first, name), c :: cs =>
    if c = ';' then
      match resolve first name with
      | .error e => .error e
      | .ok d =>
        match unescapeFrom total (position + 1) none cs with
        | .error e => .error e
        | .ok ds => .ok (d :: ds)
    else if c = '&' then .error (.unterminated first total)
    else unescapeFrom total (position + c.utf8Size) (some (first, name ++ [c])) cs

def unescape (cs : List Char) : Except ReferenceFault (List Char) :=
  unescapeFrom (byteLength cs) 0 none cs

theorem unescapeFrom_escape (total position : Nat) (cs : List Char) :
    unescapeFrom total position none (escape cs) = .ok cs := by
  induction cs generalizing position with
  | nil => simp [escape, unescapeFrom]
  | cons c cs ih =>
    rw [show escape (c :: cs) = escapeChar c ++ escape cs from rfl]
    unfold escapeChar
    split
    · next h => simp [unescapeFrom, resolve, named?, ih, h]
    split
    · next h => simp [unescapeFrom, resolve, named?, ih, h]
    split
    · next h => simp [unescapeFrom, resolve, named?, ih, h]
    split
    · next h => simp [unescapeFrom, resolve, named?, ih, h]
    split
    · next h => simp [unescapeFrom, resolve, named?, ih, h]
    · next hamp _ _ => simp [unescapeFrom, hamp, ih]

theorem unescape_escape (cs : List Char) : unescape (escape cs) = .ok cs :=
  unescapeFrom_escape _ _ _

end AudioProject.Markup
