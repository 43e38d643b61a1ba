/-
  The TOML that configurations and plans are written in: assignments of texts, truth values,
  lists and inline tables, and lists of tables under double brackets. Nothing that is read here
  takes a number, a date, a dotted key or a table under single brackets, so a text with any of
  them is refused as a whole.
-/

namespace AudioProject.Toml

inductive Value where
  | text (s : String)
  | bool (b : Bool)
  | list (items : List Value)
  | table (members : List (String × Value))

abbrev Table := List (String × Value)

def Table.get? (t : Table) (key : String) : Option Value :=
  (t.find? (·.1 = key)).map Prod.snd

/-- The values of a table that has no other keys than these. -/
def Table.record? (keys : List String) (t : Table) : Option (List (Option Value)) :=
  if t.all fun m => m.1 ∈ keys then some (keys.map t.get?) else none

namespace Value

def text? : Value → Option String
  | text s => some s
  | _ => none

def bool? : Value → Option Bool
  | bool b => some b
  | _ => none

def list? : Value → Option (List Value)
  | list vs => some vs
  | _ => none

/-- The values of a record: a table, or a list that has the values in the order of the keys, at
least the first `least` of them. -/
def record? (keys : List String) (least : Nat) : Value → Option (List (Option Value))
  | table ms => Table.record? keys ms
  | list vs =>
    if least ≤ vs.length then some ((List.range keys.length).map fun i => vs[i]?) else none
  | _ => none

end Value

/-- A value that may be missing, but not be of another type. -/
def optional? {α : Type} (f : Value → Option α) : Option Value → Option (Option α)
  | none => some none
  | some v => (f v).map some

end AudioProject.Toml
