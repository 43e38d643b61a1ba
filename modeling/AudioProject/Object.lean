import AudioProject.ObjectClass
import AudioProject.ObjectId
import AudioProject.OrderedMap

/-
  Objects of a project: an id, a class, named properties with a text each, and labelled edges
  with a list of destinations each. Properties and edges keep their order.
-/

namespace AudioProject

structure Object where
  id : ObjectId
  objectClass : ObjectClass
  properties : OrderedMap String String := ∅
  edges : OrderedMap String (List ObjectId) := ∅
  deriving DecidableEq

namespace Object

def property? (o : Object) (name : String) : Option String := o.properties.get? name

def setProperty (o : Object) (name value : String) : Object :=
  { o with properties := o.properties.insert name value }

def name? (o : Object) : Option String := o.property? "name"

/-- The destinations of an edge, none if there is no such edge. -/
def edge (o : Object) (label : String) : List ObjectId := (o.edges.get? label).getD []

def singleEdge? (o : Object) (label : String) : Option ObjectId := (o.edge label).head?

def hasEdge (o : Object) (label : String) : Bool := o.edges.contains label

def setEdge (o : Object) (label : String) (ids : List ObjectId) : Object :=
  { o with edges := o.edges.insert label ids }

/-- Puts one more destination at the end of an edge, which is made if it is missing. -/
def pushEdge (o : Object) (label : String) (id : ObjectId) : Object :=
  o.setEdge label (o.edge label ++ [id])

/-- Every destination with its label, in order. -/
def outgoing (o : Object) : List (String × ObjectId) :=
  o.edges.toList.flatMap fun e => e.2.map fun id => (e.1, id)

/-- Every destination, in order. -/
def destinations (o : Object) : List ObjectId := o.outgoing.map Prod.snd

/-- The edges with every destination `id` replaced by `f id`. -/
def mapEdges (o : Object) (f : ObjectId → ObjectId) : Object :=
  { o with edges := o.edges.mapValues fun _ ids => ids.map f }

end Object

end AudioProject
