import AudioProject.Toml
import AudioProject.Toml.Token

/-
  The statements of TOML: assignments, and headers that begin a new table of a list. Reading them
  is one fold over the tokens, with a stack of the lists and inline tables that are open. Blanks
  do not count but between the two brackets of a header; newlines do not count in lists.
-/

namespace AudioProject.Toml

inductive Statement where
  | header (key : String)
  | assign (key : String) (v : Value)

namespace Statement

/-- A list or an inline table that is open, with what it holds so far, in reverse. -/
inductive Frame where
  | list (items : List Value)
  | table (members : Table) (key : String)

/-- Where in a value the reading is. -/
inductive Expect where
  | value
  /-- After an opening bracket, or a comma in a list. -/
  | item (items : List Value)
  /-- After an opening brace. -/
  | firstKey
  /-- After a comma in an inline table. -/
  | key (members : Table)
  | equals (members : Table) (key : String)
  /-- After a value. -/
  | done (v : Value)

/-- Where in a statement the reading is. -/
inductive Mode where
  | start
  | afterKey (key : String)
  | inValue (key : String) (stack : List Frame) (e : Expect)
  /-- After one bracket and after two, after the key, and after one bracket more. -/
  | bracket
  | brackets
  | headerKey (key : String)
  | closing (key : String)
  | headerDone (key : String)

def keyOf? : Token → Option String
  | .bare w => some w
  | .text s false => some s
  | _ => none

/-- The value that begins with a token, and what is open after it. -/
def openValue? (stack : List Frame) : Token → Option (List Frame × Expect)
  | .text s _ => some (stack, .done (.text s))
  | .bare w =>
    if w = "true" then some (stack, .done (.bool true))
    else if w = "false" then some (stack, .done (.bool false))
    else none
  | .openBracket => some (stack, .item [])
  | .openBrace => some (stack, .firstKey)
  | _ => none

/-- After a value in a list or an inline table. -/
def afterItem? (stack : List Frame) (v : Value) (t : Token) : Option (List Frame × Expect) :=
  match stack, t with
  | .list vs :: fs, .comma => some (fs, .item (v :: vs))
  | .list vs :: fs, .closeBracket => some (fs, .done (.list (v :: vs).reverse))
  | .list vs :: fs, .newline => some (.list vs :: fs, .done v)
  | .table ms k :: fs, .comma => some (fs, .key ((k, v) :: ms))
  | .table ms k :: fs, .closeBrace => some (fs, .done (.table ((k, v) :: ms).reverse))
  | _, _ => none

/-- A key of an inline table, which comes once. -/
def takeKey? (stack : List Frame) (ms : Table) (t : Token) : Option (List Frame × Expect) :=
  match keyOf? t with
  | none => none
  | some k => if (ms.any fun m => m.1 = k) then none else some (stack, .equals ms k)

def nextInValue? (stack : List Frame) (e : Expect) (t : Token) : Option (List Frame × Expect) :=
  match e with
  | .value => openValue? stack t
  | .item vs =>
    match t with
    | .newline => some (stack, .item vs)
    | .closeBracket => some (stack, .done (.list vs.reverse))
    | t => openValue? (.list vs :: stack) t
  | .firstKey => if t = .closeBrace then some (stack, .done (.table [])) else takeKey? stack [] t
  | .key ms => takeKey? stack ms t
  | .equals ms k => if t = .equals then some (.table ms k :: stack, .value) else none
  | .done v => afterItem? stack v t

/-- What a token does: the statement that it ends, and the mode after it. -/
def step (m : Mode) (t : Token) : Option (List Statement × Mode) :=
  match m with
  | .start =>
    match t with
    | .blank => some ([], .start)
    | .newline => some ([], .start)
    | .openBracket => some ([], .bracket)
    | t => (keyOf? t).map fun k => ([], .afterKey k)
  | .afterKey k =>
    match t with
    | .blank => some ([], .afterKey k)
    | .equals => some ([], .inValue k [] .value)
    | _ => none
  | .inValue k stack e =>
    match t, stack, e with
    | .blank, stack, e => some ([], .inValue k stack e)
    | .newline, [], .done v => some ([.assign k v], .start)
    | t, stack, e => (nextInValue? stack e t).map fun n => ([], .inValue k n.1 n.2)
  | .bracket => if t = .openBracket then some ([], .brackets) else none
  | .brackets =>
    if t = .blank then some ([], .brackets) else (keyOf? t).map fun k => ([], .headerKey k)
  | .headerKey k =>
    match t with
    | .blank => some ([], .headerKey k)
    | .closeBracket => some ([], .closing k)
    | _ => none
  | .closing k => if t = .closeBracket then some ([], .headerDone k) else none
  | .headerDone k =>
    match t with
    | .blank => some ([], .headerDone k)
    | .newline => some ([.header k], .start)
    | _ => none

/-- The statements that the end of the text ends. -/
def finish : Mode → Option (List Statement)
  | .start => some []
  | .inValue k [] (.done v) => some [.assign k v]
  | .headerDone k => some [.header k]
  | _ => none

def ofTokensFrom? (m : Mode) : List Token → Option (List Statement)
  | [] => finish m
  | t :: ts =>
    match step m t with
    | none => none
    | some (ss, m) => (ofTokensFrom? m ts).map fun us => ss ++ us

def ofTokens? (ts : List Token) : Option (List Statement) := ofTokensFrom? .start ts

end Statement

end AudioProject.Toml
