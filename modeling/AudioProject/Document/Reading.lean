import AudioProject.Document
import AudioProject.Markup.Event
import AudioProject.Text.Blank

/-
  Reading a document is a fold over markup events. The state knows one open object at most, the
  property and the relationship that are being filled, and the slot that takes character data.
  Elements with other names are passed over, but what stands in them is not.
-/

namespace AudioProject.Document

open Markup Text

/-- Where character data goes. -/
inductive Slot where
  | ignored
  | value
  | destination
  deriving DecidableEq, Repr

structure Reading where
  model : Option Model := none
  objects : List Object := []
  current : Option Object := none
  property : Option String := none
  relationship : Option String := none
  slot : Slot := .ignored
  text : List Char := []
  sawRoot : Bool := false
  closedRoot : Bool := false
  deriving DecidableEq

namespace Reading

/-- The value of an attribute that has to be there. -/
def required (tag : Tag) (key : String) (position : Nat) : Except Error String :=
  match tag.value? key.toList with
  | .error e => .error (.markup e)
  | .ok (some v) => .ok (String.ofList v)
  | .ok none =>
    .error (.malformed position (.missingAttribute (String.ofList tag.name) key))

def checked {α : Type} (x : Except ValueError α) : Except Error α :=
  match x with
  | .ok a => .ok a
  | .error e => .error (.invalidValue e)

/-- Gives the collected text to the property that is open. -/
def endValue (r : Reading) : Reading :=
  let r' := { r with slot := .ignored, text := [] }
  match r.current, r.property with
  | some o, some name => { r' with current := o.setProperty name (String.ofList r.text) }
  | _, _ => r'

/-- Starts collecting for a slot. -/
def collect (r : Reading) (slot : Slot) : Reading := { r with slot := slot, text := [] }

def openRoot (r : Reading) (tag : Tag) (empty : Bool) (position : Nat) :
    Except Error Reading := do
  let model ← checked (Model.ofString? (← required tag "serializationModel" position))
  .ok { r with model := some model, sawRoot := true, closedRoot := empty }

def openObject (r : Reading) (tag : Tag) (empty : Bool) (position : Nat) :
    Except Error Reading := do
  if !r.sawRoot then .error (.malformed position .objectOutsideRoot)
  else if r.current.isSome then .error (.malformed position .nestedObject)
  else
    let name ← required tag "class" position
    let id ← checked (ObjectId.ofString? (← required tag "id" position))
    let o : Object := { id := id, objectClass := .ofName name }
    .ok (if empty then { r with objects := r.objects ++ [o] } else { r with current := some o })

def openProperty (r : Reading) (tag : Tag) (position : Nat) : Except Error Reading := do
  if r.current.isSome then
    .ok { r with property := some (← required tag "name" position) }
  else .ok r

/-- A relationship exists from here on, also without destinations. -/
def openRelationship (r : Reading) (tag : Tag) (empty : Bool) (position : Nat) :
    Except Error Reading := do
  let label ← required tag "name" position
  match r.current with
  | none => .error (.malformed position .relationshipOutsideObject)
  | some o =>
    let r := { r with current := some (o.setEdge label (o.edge label)) }
    .ok (if empty then r else { r with relationship := some label })

def openTag (r : Reading) (tag : Tag) (empty : Bool) (position : Nat) : Except Error Reading :=
  match String.ofList tag.name with
  | "objects" => r.openRoot tag empty position
  | "object" => r.openObject tag empty position
  | "property" => r.openProperty tag position
  | "relationship" => r.openRelationship tag empty position
  | "value" =>
    .ok (if r.property.isNone then r else if empty then r.endValue else r.collect .value)
  | "destination" =>
    .ok (if r.relationship.isNone || empty then r else r.collect .destination)
  | _ => .ok r

/-- Gives the collected id to the relationship that is open. -/
def endDestination (r : Reading) : Except Error Reading := do
  let id ← checked (ObjectId.ofString? (String.ofList (trimChars r.text)))
  let r' := { r with slot := .ignored, text := [] }
  match r.current, r.relationship with
  | some o, some label => .ok { r' with current := o.pushEdge label id }
  | _, _ => .ok r'

def closeTag (r : Reading) (name : List Char) (position : Nat) : Except Error Reading :=
  match String.ofList name with
  | "value" => .ok (if r.slot = .value then r.endValue else r)
  | "destination" => if r.slot = .destination then r.endDestination else .ok r
  | "objects" => .ok { r with closedRoot := true }
  | "property" => .ok { r with property := none }
  | "relationship" => .ok { r with relationship := none }
  | "object" =>
    match r.current with
    | none => .error (.malformed position .unbalancedObject)
    | some o => .ok { r with objects := r.objects ++ [o], current := none }
  | _ => .ok r

/-- Character data matters only to a slot, and its references are resolved only then. -/
def addText (r : Reading) (raw : List Char) : Except Error Reading :=
  if r.slot = .ignored then .ok r
  else
    match unescape raw with
    | .ok cs => .ok { r with text := r.text ++ cs }
    | .error e => .error (.markup (.badReference e))

def addLiteral (r : Reading) (content : List Char) : Reading :=
  if r.slot = .ignored then r else { r with text := r.text ++ content }

def step (r : Reading) (e : Nat × Event) : Except Error Reading :=
  match e.2 with
  | .start tag => r.openTag tag false e.1
  | .empty tag => r.openTag tag true e.1
  | .finish name => r.closeTag name e.1
  | .text raw => r.addText raw
  | .cdata content => .ok (r.addLiteral content)
  | .fault e => .error (.markup e)

def run (r : Reading) : List (Nat × Event) → Except Error Reading
  | [] => .ok r
  | e :: es =>
    match r.step e with
    | .ok r => r.run es
    | .error e => .error e

/-- The document, if nothing is missing at the end of the text. -/
def finish (r : Reading) (position : Nat) : Except Error Document :=
  match r.model with
  | none => .error (.malformed position .missingRoot)
  | some model =>
    if r.current.isSome then .error (.malformed position .unterminatedObject)
    else if !r.closedRoot then .error (.malformed position .unterminatedRoot)
    else .ok { model := model, objects := r.objects }

end Reading

/-- The document that events describe, in a text of `size` bytes. -/
def ofEvents? (es : List (Nat × Event)) (size : Nat) : Except Error Document :=
  match Reading.run {} es with
  | .ok r => r.finish size
  | .error e => .error e

def parse (s : String) : Except Error Document :=
  ofEvents? (events s.toList) (byteLength (withoutMark s.toList))

end AudioProject.Document
