/-
  The tokens of TOML. Reading them is one fold over the characters, in a mode that says what is
  open. Line ends are single newlines from the start; a return that stands alone is refused.
-/

namespace AudioProject.Toml

inductive Token where
  | blank
  | newline
  | equals
  | comma
  | openBracket
  | closeBracket
  | openBrace
  | closeBrace
  /-- Letters, digits, underscores and hyphens. -/
  | bare (word : String)
  /-- A text in quotes, and whether it is one of those that can have several lines. -/
  | text (s : String) (isLong : Bool)
  deriving DecidableEq, Repr

namespace Token

/-- What is open. Characters that have been read are kept in reverse. -/
inductive Mode where
  | between
  | bare (acc : List Char)
  | comment
  /-- After one quote, and after two. -/
  | quote (q : Char)
  | quotes (q : Char)
  | short (q : Char) (acc : List Char)
  /-- At the start of a long text, where a newline does not count. -/
  | start (q : Char)
  | long (q : Char) (acc : List Char)
  /-- After `n` quotes in a long text, up to five. -/
  | ending (q : Char) (acc : List Char) (n : Nat)
  /-- After a backslash. -/
  | escape (isLong : Bool) (acc : List Char)
  /-- In a code point of which `left` digits are missing. -/
  | point (isLong : Bool) (acc : List Char) (left value : Nat)
  /-- After a backslash and blanks, before the end of the line. -/
  | continued (acc : List Char)
  /-- After the end of a continued line, where blanks and newlines do not count. -/
  | trimming (acc : List Char)

def isBlank (c : Char) : Bool := c = ' ' || c = '\t'

def isBare (c : Char) : Bool := c.isAlphanum || c = '_' || c = '-'

/-- Controls other than the tab stand nowhere. -/
def isForbidden (c : Char) : Bool := (c.toNat < 0x20 && c ≠ '\t') || c.toNat = 0x7f

def isQuote (c : Char) : Bool := c = '"' || c = '\''

def mark? (c : Char) : Option Token :=
  if isBlank c then some .blank
  else if c = '\n' then some .newline
  else if c = '=' then some .equals
  else if c = ',' then some .comma
  else if c = '[' then some .openBracket
  else if c = ']' then some .closeBracket
  else if c = '\x7b' then some .openBrace
  else if c = '\x7d' then some .closeBrace
  else none

/-- What one character does: the tokens that it ends, and the mode after it. -/
abbrev Effect := Option (List Token × Mode)

/-- A character between tokens. -/
def begin (c : Char) : Effect :=
  if isBare c then some ([], .bare [c])
  else if isQuote c then some ([], .quote c)
  else if c = '#' then some ([], .comment)
  else (mark? c).map fun t => ([t], .between)

/-- A token that ends before the character. -/
def endBefore (t : Token) (c : Char) : Effect := (begin c).map fun e => (t :: e.1, e.2)

def quoted (isLong : Bool) (acc : List Char) : Token := .text (String.ofList acc.reverse) isLong

/-- A character of a text on one line. -/
def inShort (q : Char) (acc : List Char) (c : Char) : Effect :=
  if c = q then some ([quoted false acc], .between)
  else if c = '\\' ∧ q = '"' then some ([], .escape false acc)
  else if isForbidden c then none
  else some ([], .short q (c :: acc))

/-- A character of a text on several lines. -/
def inLong (q : Char) (acc : List Char) (c : Char) : Effect :=
  if c = q then some ([], .ending q acc 1)
  else if c = '\\' ∧ q = '"' then some ([], .escape true acc)
  else if isForbidden c ∧ c ≠ '\n' then none
  else some ([], .long q (c :: acc))

/-- The mode in a text with escapes. -/
def resume (isLong : Bool) (acc : List Char) : Mode :=
  if isLong then .long '"' acc else .short '"' acc

def escaped? (c : Char) : Option Char :=
  if c = 'b' then some '\x08'
  else if c = 't' then some '\t'
  else if c = 'n' then some '\n'
  else if c = 'f' then some '\x0c'
  else if c = 'r' then some '\r'
  else if c = '"' then some '"'
  else if c = '\\' then some '\\'
  else none

/-- The character after a backslash. -/
def inEscape (isLong : Bool) (acc : List Char) (c : Char) : Effect :=
  if c = 'u' then some ([], .point isLong acc 4 0)
  else if c = 'U' then some ([], .point isLong acc 8 0)
  else if isLong ∧ isBlank c then some ([], .continued acc)
  else if isLong ∧ c = '\n' then some ([], .trimming acc)
  else (escaped? c).map fun d => ([], resume isLong (d :: acc))

def hexValue? (c : Char) : Option Nat :=
  if c.isDigit then some (c.toNat - '0'.toNat)
  else if 'a' ≤ c ∧ c ≤ 'f' then some (c.toNat - 'a'.toNat + 10)
  else if 'A' ≤ c ∧ c ≤ 'F' then some (c.toNat - 'A'.toNat + 10)
  else none

/-- The text with a code point, which has to be that of a character. -/
def addPoint (isLong : Bool) (acc : List Char) (n : Nat) : Effect :=
  if n.isValidChar then some ([], resume isLong (Char.ofNat n :: acc)) else none

def inPoint (isLong : Bool) (acc : List Char) (left value : Nat) (c : Char) : Effect :=
  match hexValue? c with
  | none => none
  | some d =>
    if left ≤ 1 then addPoint isLong acc (16 * value + d)
    else some ([], .point isLong acc (left - 1) (16 * value + d))

/-- Quotes of which the last three end the text. -/
def ended (q : Char) (acc : List Char) (n : Nat) : Token :=
  quoted true (List.replicate (n - 3) q ++ acc)

def afterQuotes (q : Char) (acc : List Char) (n : Nat) (c : Char) : Effect :=
  if c = q then if n < 5 then some ([], .ending q acc (n + 1)) else none
  else if 3 ≤ n then endBefore (ended q acc n) c
  else inLong q (List.replicate n q ++ acc) c

def step (m : Mode) (c : Char) : Effect :=
  match m with
  | .between => begin c
  | .bare acc =>
    if isBare c then some ([], .bare (c :: acc))
    else endBefore (.bare (String.ofList acc.reverse)) c
  | .comment =>
    if c = '\n' then some ([.newline], .between)
    else if isForbidden c then none
    else some ([], .comment)
  | .quote q => if c = q then some ([], .quotes q) else inShort q [] c
  | .quotes q => if c = q then some ([], .start q) else endBefore (quoted false []) c
  | .short q acc => inShort q acc c
  | .start q => if c = '\n' then some ([], .long q []) else inLong q [] c
  | .long q acc => inLong q acc c
  | .ending q acc n => afterQuotes q acc n c
  | .escape isLong acc => inEscape isLong acc c
  | .point isLong acc left value => inPoint isLong acc left value c
  | .continued acc =>
    if isBlank c then some ([], .continued acc)
    else if c = '\n' then some ([], .trimming acc)
    else none
  | .trimming acc =>
    if isBlank c ∨ c = '\n' then some ([], .trimming acc) else inLong '"' acc c

/-- The tokens that the end of the text ends. -/
def finish : Mode → Option (List Token)
  | .between => some []
  | .comment => some []
  | .bare acc => some [.bare (String.ofList acc.reverse)]
  | .quotes _ => some [quoted false []]
  | .ending q acc n => if 3 ≤ n then some [ended q acc n] else none
  | _ => none

def tokensFrom? (m : Mode) : List Char → Option (List Token)
  | [] => finish m
  | c :: cs =>
    match step m c with
    | none => none
    | some (ts, m) => (tokensFrom? m cs).map fun us => ts ++ us

/-- The text with a newline for each return and newline. -/
def unifyLines? : List Char → Option (List Char)
  | [] => some []
  | c :: cs =>
    if c = '\r' then
      match cs with
      | '\n' :: _ => unifyLines? cs
      | _ => none
    else (unifyLines? cs).map fun r => c :: r

/-- The text without the mark that some editors put in front. -/
def withoutMark (cs : List Char) : List Char :=
  match cs with
  | '\ufeff' :: cs => cs
  | cs => cs

/-- The tokens of a text, the blanks between them included. -/
def tokens? (s : String) : Option (List Token) :=
  (unifyLines? (withoutMark s.toList)).bind (tokensFrom? .between)

end Token

end AudioProject.Toml
