import AudioProject.Document
import AudioProject.Markup.Reference

/-
  The written form of a document. Every tag has a line of its own and a tab for each element it
  stands in; the text of a value or a destination stays on the line of its tags.
-/

namespace AudioProject.Document

open Markup

def escapeString (s : String) : String := String.ofList (escape s.toList)

def attributeText (key value : String) : String :=
  " " ++ key ++ "=\"" ++ escapeString value ++ "\""

/-- A line that is `depth` elements deep. -/
def line (depth : Nat) (text : String) : String :=
  "\n" ++ String.ofList (List.replicate depth '\t') ++ text

/-- An element that holds text alone. -/
def leaf (depth : Nat) (name text : String) : String :=
  line depth ("<" ++ name ++ ">" ++ escapeString text ++ "</" ++ name ++ ">")

/-- An element that holds other elements. -/
def branch (depth : Nat) (name attributes : String) (content : List String) : String :=
  line depth ("<" ++ name ++ attributes ++ ">") ++ String.join content ++
    line depth ("</" ++ name ++ ">")

def propertyText (p : String × String) : String :=
  branch 2 "property" (attributeText "name" p.1) [leaf 3 "value" p.2]

def relationshipText (e : String × List ObjectId) : String :=
  branch 2 "relationship" (attributeText "name" e.1)
    (e.2.map fun id => leaf 3 "destination" id.text)

def objectText (o : Object) : String :=
  branch 1 "object" (attributeText "class" o.objectClass.name ++ attributeText "id" o.id.text)
    (o.properties.toList.map propertyText ++ o.edges.toList.map relationshipText)

def print (d : Document) : String :=
  "<?xml version=\"1.0\" encoding=\"UTF-8\"?>" ++
    branch 0 "objects" (attributeText "serializationModel" d.model.text)
      (d.objects.map objectText) ++ "\n"

end AudioProject.Document
