import AudioProject.Json

/-
  Reading JSON: characters to tokens, tokens to a value. Both are folds, the first over a mode
  that says what is open, the second over a stack of the arrays and objects that are open.

  Texts that no journal is written in are not all read as the program reads them. In a member that
  it takes apart it stops at arrays and objects that lie more than 127 deep in one another, and at
  numbers like 1e999; here depth and size do not matter. In a member that it passes over it does not
  look at the halves of surrogate pairs; here half of a pair is refused wherever it stands.
-/

namespace AudioProject.Json

inductive Token where
  | openArray
  | closeArray
  | openObject
  | closeObject
  | comma
  | colon
  | str (s : String)
  /-- A number or a word. -/
  | bare (text : List Char)
  deriving DecidableEq, Repr

/-! ## Tokens -/

def isJsonBlank (c : Char) : Bool := c = ' ' || c = '\t' || c = '\r' || c = '\n'

def punctuation? (c : Char) : Option Token :=
  if c = '[' then some .openArray
  else if c = ']' then some .closeArray
  else if c = '\x7b' then some .openObject
  else if c = '\x7d' then some .closeObject
  else if c = ',' then some .comma
  else if c = ':' then some .colon
  else none

/-- What is open. Characters that have been read are kept in reverse. -/
inductive Mode where
  | between
  | bare (acc : List Char)
  | string (acc : List Char)
  /-- After a backslash. -/
  | escape (acc : List Char)
  /-- In a code unit of which `left` digits are missing, after a first half `high`. -/
  | unit (acc : List Char) (high : Option Nat) (left value : Nat)
  /-- After a first half, before the backslash of the second. -/
  | half (acc : List Char) (high : Nat)
  /-- After the backslash of a second half. -/
  | halfEscape (acc : List Char) (high : Nat)

def hexValue? (c : Char) : Option Nat :=
  if c.isDigit then some (c.toNat - '0'.toNat)
  else if 'a' ≤ c ∧ c ≤ 'f' then some (c.toNat - 'a'.toNat + 10)
  else if 'A' ≤ c ∧ c ≤ 'F' then some (c.toNat - 'A'.toNat + 10)
  else none

def escaped? (c : Char) : Option Char :=
  if c = '"' then some '"'
  else if c = '\\' then some '\\'
  else if c = '/' then some '/'
  else if c = 'b' then some '\x08'
  else if c = 'f' then some '\x0c'
  else if c = 'n' then some '\n'
  else if c = 'r' then some '\r'
  else if c = 't' then some '\t'
  else none

/-- The mode after a complete code unit. -/
def afterUnit? (acc : List Char) (high : Option Nat) (n : Nat) : Option Mode :=
  match high with
  | none =>
    if 0xd800 ≤ n ∧ n < 0xdc00 then some (.half acc n)
    else if 0xdc00 ≤ n ∧ n < 0xe000 then none
    else some (.string (Char.ofNat n :: acc))
  | some h =>
    if 0xdc00 ≤ n ∧ n < 0xe000 then
      some (.string (Char.ofNat (0x10000 + (h - 0xd800) * 0x400 + (n - 0xdc00)) :: acc))
    else none

/-- The tokens and the mode after a character between tokens. -/
def begin (c : Char) : List Token × Mode :=
  if isJsonBlank c then ([], .between)
  else if c = '"' then ([], .string [])
  else
    match punctuation? c with
    | some t => ([t], .between)
    | none => ([], .bare [c])

/-- What one character does: the tokens that it ends, and the mode after it. -/
def step (m : Mode) (c : Char) : Option (List Token × Mode) :=
  match m with
  | .between => some (begin c)
  | .bare acc =>
    if isJsonBlank c || c = '"' || (punctuation? c).isSome then
      let (ts, m) := begin c
      some (.bare acc.reverse :: ts, m)
    else some ([], .bare (c :: acc))
  | .string acc =>
    if c = '"' then some ([.str (String.ofList acc.reverse)], .between)
    else if c = '\\' then some ([], .escape acc)
    else if c.toNat < 0x20 then none
    else some ([], .string (c :: acc))
  | .escape acc =>
    if c = 'u' then some ([], .unit acc none 4 0)
    else (escaped? c).map fun d => ([], .string (d :: acc))
  | .unit acc high left value =>
    match hexValue? c with
    | none => none
    | some d =>
      if left ≤ 1 then (afterUnit? acc high (16 * value + d)).map fun m => ([], m)
      else some ([], .unit acc high (left - 1) (16 * value + d))
  | .half acc high => if c = '\\' then some ([], .halfEscape acc high) else none
  | .halfEscape acc high => if c = 'u' then some ([], .unit acc (some high) 4 0) else none

def tokensFrom? (m : Mode) : List Char → Option (List Token)
  | [] =>
    match m with
    | .between => some []
    | .bare acc => some [.bare acc.reverse]
    | _ => none
  | c :: cs =>
    match step m c with
    | none => none
    | some (ts, m) =>
      match tokensFrom? m cs with
      | none => none
      | some us => some (ts ++ us)

def tokens? (s : String) : Option (List Token) := tokensFrom? .between s.toList

/-! ## Numbers and words -/

/-- An exponent, or nothing. -/
def isExponent : List Char → Bool
  | [] => true
  | e :: cs =>
    if e = 'e' ∨ e = 'E' then
      match cs with
      | '+' :: cs => !cs.isEmpty && cs.all Char.isDigit
      | '-' :: cs => !cs.isEmpty && cs.all Char.isDigit
      | cs => !cs.isEmpty && cs.all Char.isDigit
    else false

/-- A fraction with an exponent, either or both missing. -/
def isFraction : List Char → Bool
  | '.' :: cs =>
    let ds := cs.takeWhile Char.isDigit
    !ds.isEmpty && isExponent (cs.drop ds.length)
  | cs => isExponent cs

def isUnsigned : List Char → Bool
  | '0' :: cs => isFraction cs
  | cs =>
    let ds := cs.takeWhile Char.isDigit
    !ds.isEmpty && isFraction (cs.drop ds.length)

def isNumber : List Char → Bool
  | '-' :: cs => isUnsigned cs
  | cs => isUnsigned cs

def ofBare? (cs : List Char) : Option Json :=
  if cs = "null".toList then some .null
  else if cs = "true".toList then some (.bool true)
  else if cs = "false".toList then some (.bool false)
  else if isNumber cs then some (.num (String.ofList cs))
  else none

/-! ## Values -/

/-- An array or an object that is open, with what it holds so far, in reverse. -/
inductive Frame where
  | array (items : List Json)
  | object (members : List (String × Json)) (key : String)

/-- What may come next. -/
inductive Expect where
  | value
  /-- After `[`. -/
  | valueOrClose
  | key (members : List (String × Json))
  /-- After an opening brace. -/
  | keyOrClose
  | colon (members : List (String × Json)) (key : String)
  /-- After a value. -/
  | done (v : Json)

def close? (stack : List Frame) (v : Json) (t : Token) : Option (List Frame × Expect) :=
  match stack, t with
  | .array vs :: fs, .comma => some (.array (v :: vs) :: fs, .value)
  | .array vs :: fs, .closeArray => some (fs, .done (.arr (v :: vs).reverse))
  | .object ms k :: fs, .comma => some (fs, .key ((k, v) :: ms))
  | .object ms k :: fs, .closeObject => some (fs, .done (.obj ((k, v) :: ms).reverse))
  | _, _ => none

def open? (stack : List Frame) (t : Token) : Option (List Frame × Expect) :=
  match t with
  | .openArray => some (stack, .valueOrClose)
  | .openObject => some (stack, .keyOrClose)
  | .str s => some (stack, .done (.str s))
  | .bare cs => (ofBare? cs).map fun v => (stack, .done v)
  | _ => none

def next? (stack : List Frame) (e : Expect) (t : Token) : Option (List Frame × Expect) :=
  match e with
  | .value => open? stack t
  | .valueOrClose =>
    if t = .closeArray then some (stack, .done (.arr [])) else open? (.array [] :: stack) t
  | .key ms =>
    match t with
    | .str k => some (stack, .colon ms k)
    | _ => none
  | .keyOrClose =>
    match t with
    | .str k => some (stack, .colon [] k)
    | .closeObject => some (stack, .done (.obj []))
    | _ => none
  | .colon ms k => if t = .colon then some (.object ms k :: stack, .value) else none
  | .done v => close? stack v t

def build? (stack : List Frame) (e : Expect) : List Token → Option Json
  | [] =>
    match stack, e with
    | [], .done v => some v
    | _, _ => none
  | t :: ts =>
    match next? stack e t with
    | none => none
    | some (stack, e) => build? stack e ts

def parse? (s : String) : Option Json :=
  match tokens? s with
  | none => none
  | some ts => build? [] .value ts

end AudioProject.Json
