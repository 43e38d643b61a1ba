import AudioProject.ValueError

/-
  The four kinds of objects that a project creates and arranges in trees. Each kind has its own
  index and its own table of staged records; the order of the constructors is the commit order.
-/

namespace AudioProject

inductive Kind where
  | eventFolder
  | assetFolder
  | bank
  | bus
  deriving DecidableEq, Repr

namespace Kind

def all : List Kind := [eventFolder, assetFolder, bank, bus]

theorem mem_all (k : Kind) : k ∈ all := by cases k <;> decide

/-- The name that commands and journals use. -/
def name : Kind → String
  | eventFolder => "event-folder"
  | assetFolder => "asset-folder"
  | bank => "bank"
  | bus => "bus"

/-- The name that messages use. -/
def label : Kind → String
  | eventFolder => "event folder"
  | assetFolder => "asset folder"
  | bank => "bank"
  | bus => "bus"

/-- The edge that leads to the parent. Asset folders have none: their path places them. -/
def parentEdge? : Kind → Option String
  | eventFolder => some "folder"
  | assetFolder => none
  | bank => some "folder"
  | bus => some "output"

/-- The metadata directories that hold documents of this kind, in reading order. -/
def directories : Kind → List String
  | eventFolder => ["EventFolder"]
  | assetFolder => ["Asset"]
  | bank => ["BankFolder", "Bank"]
  | bus => ["Group"]

/-- Place in the commit order. -/
def rank : Kind → Nat
  | eventFolder => 0
  | assetFolder => 1
  | bank => 2
  | bus => 3

def ofName? (s : String) : Except ValueError Kind :=
  match all.find? (·.name = s) with
  | some k => .ok k
  | none => .error (.unknownKind s)

theorem ofName?_name (k : Kind) : ofName? k.name = .ok k := by cases k <;> rfl

end Kind

end AudioProject
