import AudioProject.EventGraph

/-
  Copies of a template. Every node gets a new id, and edges between nodes follow; edges that
  leave the template keep their destination until the overrides redirect the few that change.
-/

namespace AudioProject

/-- New ids for the nodes of a template, in the template's order. -/
abbrev Renaming := OrderedMap ObjectId ObjectId

/-- The new id of a node; an id outside the template stays. -/
def Renaming.apply (r : Renaming) (id : ObjectId) : ObjectId := (r.get? id).getD id

namespace EventGraph

/-- New ids for `olds`: the old root becomes `root`, and every other id is minted. -/
def renamingFor (oldRoot root : ObjectId) (ids : IdSupply) (r : Renaming) :
    List ObjectId → Renaming × IdSupply
  | [] => (r, ids)
  | old :: olds =>
    if old = oldRoot then renamingFor oldRoot root ids (r.insert old root) olds
    else
      let (new, ids) := ids.mint
      renamingFor oldRoot root ids (r.insert old new) olds

/-- A node under its new id, with its edges led to the new ids. -/
def renameNode (r : Renaming) (o : Object) : Object :=
  { o.mapEdges r.apply with id := r.apply o.id }

def rename (g : EventGraph) (r : Renaming) (root : ObjectId) : EventGraph where
  root := root
  model := g.model
  nodes := definitions (g.nodes.values.map (renameNode r))

/-- A copy whose root is `root`, with the new ids of its nodes. -/
def copy (g : EventGraph) (root : ObjectId) (ids : IdSupply) :
    EventGraph × Renaming × IdSupply :=
  let (r, ids) := renamingFor g.root root ids ∅ g.nodes.keys
  (g.rename r root, r, ids)

end EventGraph

/-- What a new event has in place of the template's. -/
structure Overrides where
  name : String
  folder : ObjectId
  bank : ObjectId
  bus : ObjectId
  deriving DecidableEq

namespace EventGraph

/-- The event with its own name, folder and bank. -/
def overrideRoot (v : Overrides) (o : Object) : Object :=
  ((o.setProperty "name" v.name).setEdge "folder" [v.folder]).setEdge "banks" [v.bank]

/-- Mixer inputs lead to the bus; other nodes stay. -/
def overrideOutput (v : Overrides) (o : Object) : Object :=
  if o.objectClass = .mixerInput then o.setEdge "output" [v.bus] else o

/-- The graph with the overrides, and how many mixer inputs were redirected. -/
def override (g : EventGraph) (v : Overrides) : EventGraph × Nat :=
  let g := g.update g.root (overrideRoot v)
  ({ g with nodes := g.nodes.mapValues fun _ o => overrideOutput v o },
    (g.ofClass .mixerInput).length)

end EventGraph

end AudioProject
