import AudioProject.AssetPath
import AudioProject.Toml.Reading

/-
  Batch plans: folders, banks, buses and asset folders to stage, and events to make. A key names
  an entry inside the plan, and a reference is such a key or the id of something that exists.
-/

namespace AudioProject.Batch

/-- An event folder, a bank folder, a bank or a bus, below what `above?` refers to. -/
structure NodeEntry where
  key? : Option String := none
  name : String
  above? : Option String := none
  deriving DecidableEq, Repr

structure PathEntry where
  key? : Option String := none
  path : AssetPath
  deriving DecidableEq

structure EventEntry where
  key? : Option String := none
  template : String
  name : String
  folder : String
  bank : String
  bus : String
  media : List String := []
  deriving DecidableEq, Repr

structure Plan where
  eventFolders : List NodeEntry := []
  bankFolders : List NodeEntry := []
  banks : List NodeEntry := []
  buses : List NodeEntry := []
  assetFolders : List PathEntry := []
  events : List EventEntry := []
  deriving DecidableEq

namespace Plan

/-- How many records the plan stages. -/
def recordCount (p : Plan) : Nat :=
  p.eventFolders.length + p.bankFolders.length + p.banks.length + p.buses.length +
    p.assetFolders.length

/-- The keys, entry after entry. -/
def keys (p : Plan) : List String :=
  (p.eventFolders ++ p.bankFolders ++ p.banks ++ p.buses).filterMap (·.key?) ++
    p.assetFolders.filterMap (·.key?) ++ p.events.filterMap (·.key?)

/-! ## Reading -/

open Toml

def required? {α : Type} (f : Value → Option α) (v : Option Value) : Option α := v.bind f

def nodeOf? (above : String) (v : Value) : Option NodeEntry :=
  match v.record? ["key", "name", above] 3 with
  | some [key, name, above] => do
    some ⟨← optional? Value.text? key, ← required? Value.text? name,
      ← optional? Value.text? above⟩
  | _ => none

def assetPath? (v : Value) : Option AssetPath :=
  match v.text? with
  | none => none
  | some s =>
    match AssetPath.ofString? s with
    | .ok p => some p
    | .error _ => none

def pathOf? (v : Value) : Option PathEntry :=
  match v.record? ["key", "path"] 2 with
  | some [key, path] => do
    some ⟨← optional? Value.text? key, ← required? assetPath? path⟩
  | _ => none

def texts? (v : Value) : Option (List String) := v.list?.bind fun vs => vs.mapM Value.text?

def eventOf? (v : Value) : Option EventEntry :=
  match v.record? ["key", "template", "name", "folder", "bank", "bus", "media"] 6 with
  | some [key, template, name, folder, bank, bus, media] => do
    some ⟨← optional? Value.text? key, ← required? Value.text? template,
      ← required? Value.text? name, ← required? Value.text? folder,
      ← required? Value.text? bank, ← required? Value.text? bus,
      (← optional? texts? media).getD []⟩
  | _ => none

/-- A list of entries, which may be missing. -/
def entries? {α : Type} (f : Value → Option α) (v : Option Value) : Option (List α) :=
  match v with
  | none => some []
  | some v => v.list?.bind fun vs => vs.mapM f

def ofTable? (t : Table) : Option Plan :=
  match t.record? ["event_folder", "bank_folder", "bank", "bus", "asset_folder", "event"] with
  | some [eventFolders, bankFolders, banks, buses, assetFolders, events] => do
    some ⟨← entries? (nodeOf? "parent") eventFolders,
      ← entries? (nodeOf? "parent") bankFolders, ← entries? (nodeOf? "parent") banks,
      ← entries? (nodeOf? "output") buses, ← entries? pathOf? assetFolders,
      ← entries? eventOf? events⟩
  | _ => none

def ofText? (s : String) : Option Plan := (Toml.parse? s).bind ofTable?

end Plan

end AudioProject.Batch
