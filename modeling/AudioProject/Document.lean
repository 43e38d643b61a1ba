import AudioProject.Markup.Fault
import AudioProject.Model
import AudioProject.Object

/-
  Object documents: a version tag and objects in file order, and why a text is not one.
-/

namespace AudioProject

structure Document where
  model : Model
  objects : List Object
  deriving DecidableEq

namespace Document

/-- The first object with an id. -/
def find? (d : Document) (id : ObjectId) : Option Object := d.objects.find? (·.id = id)

/-- The first object of a class. -/
def firstOf? (d : Document) (c : ObjectClass) : Option Object :=
  d.objects.find? (·.objectClass = c)

/-- The objects of a class. -/
def allOf (d : Document) (c : ObjectClass) : List Object :=
  d.objects.filter (·.objectClass = c)

/-- A shape that no document has. -/
inductive Malformation where
  | missingAttribute (element key : String)
  | objectOutsideRoot
  | nestedObject
  | relationshipOutsideObject
  | unbalancedObject
  | missingRoot
  | unterminatedObject
  | unterminatedRoot
  deriving DecidableEq, Repr

def Malformation.message : Malformation → String
  | missingAttribute element key =>
    "<" ++ element ++ "> is missing attribute '" ++ key ++ "'"
  | objectOutsideRoot => "<object> outside <objects>"
  | nestedObject => "nested <object> elements"
  | relationshipOutsideObject => "<relationship> outside <object>"
  | unbalancedObject => "unbalanced </object>"
  | missingRoot => "missing <objects serializationModel=...>"
  | unterminatedObject => "unterminated <object>"
  | unterminatedRoot => "unterminated <objects>"

inductive Error where
  | markup (e : Markup.Fault)
  | malformed (position : Nat) (why : Malformation)
  | invalidValue (e : ValueError)
  deriving DecidableEq, Repr

def Error.message : Error → String
  | markup e => "xml syntax error: " ++ e.message
  | malformed position why =>
    "malformed object document at byte " ++ toString position ++ ": " ++ why.message
  | invalidValue e => "invalid value in object document: " ++ e.message

end Document

end AudioProject
