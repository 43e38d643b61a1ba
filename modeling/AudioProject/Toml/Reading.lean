import AudioProject.OrderedMap
import AudioProject.Toml.Statement

/-
  From statements to a table. A key is assigned once; a header makes a new table of the list that
  it names, which takes the assignments up to the next header.
-/

namespace AudioProject.Toml

/-- What the statements so far make. -/
structure Draft where
  values : OrderedMap String Value := ∅
  /-- The lists of tables, each with its last table first. -/
  lists : OrderedMap String (List (OrderedMap String Value)) := ∅
  /-- The list whose last table is open. -/
  current : Option String := none

namespace Draft

/-- A key that has no value yet. -/
def assign? (m : OrderedMap String Value) (k : String) (v : Value) :
    Option (OrderedMap String Value) :=
  if m.contains k then none else some (m.insert k v)

def add? (d : Draft) : Statement → Option Draft
  | .header k =>
    if d.values.contains k then none
    else
      some { d with
        lists := d.lists.insert k (∅ :: (d.lists.get? k).getD []), current := some k }
  | .assign k v =>
    match d.current with
    | none => (assign? d.values k v).map fun m => { d with values := m }
    | some list =>
      match (d.lists.get? list).getD [] with
      | [] => none
      | m :: ms => (assign? m k v).map fun m => { d with lists := d.lists.insert list (m :: ms) }

def table (d : Draft) : Table :=
  d.values.toList ++
    d.lists.toList.map fun e => (e.1, .list (e.2.reverse.map fun m => .table m.toList))

end Draft

def parse? (s : String) : Option Table := do
  let tokens ← Token.tokens? s
  let statements ← Statement.ofTokens? tokens
  let d ← statements.foldlM Draft.add? {}
  some d.table

end AudioProject.Toml
