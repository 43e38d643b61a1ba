import AudioProject.Model
import AudioProject.Object
import AudioProject.Unseen

/-
  An event with all that its document holds of it: the objects that edges lead to from the event
  and that are defined beside it. Where an id is defined twice the last object counts, at the
  place of the first. An event is found among the objects of its document by a search in breadth,
  with objects in its queue, and what is left of it after a change by another, with ids in its
  queue.
-/

namespace AudioProject

/-! ## Definitions -/

/-- The object that defines an id: the last one that has it. -/
def definition? (os : List Object) (id : ObjectId) : Option Object :=
  os.reverse.find? (·.id = id)

theorem isSome_definition? {os : List Object} {id : ObjectId} :
    (definition? os id).isSome = true ↔ id ∈ os.map Object.id := by
  unfold definition?
  rw [List.find?_isSome]
  simp [eq_comm]

/-- The objects by id. -/
def definitions (os : List Object) : OrderedMap ObjectId Object :=
  .ofList (os.map fun o => (o.id, o))

/-! ## Searching -/

/-- What a search has still to do: the ids that it may yet find, and those that it has found but
not followed. -/
def toDo {α : Type} (ids : List ObjectId) (s : List ObjectId × List α) : Nat :=
  unseen ids s.1 + s.2.length

/-- An id that is noted is one less to be found, and one more to be followed. -/
theorem toDo_noted_le {α : Type} {ids found : List ObjectId} {id : ObjectId} (hid : id ∈ ids)
    (hnew : id ∉ found) (queue : List α) (a : α) :
    toDo ids (id :: found, queue ++ [a]) ≤ toDo ids (found, queue) := by
  have hless := unseen_cons_lt hid hnew
  show unseen ids (id :: found) + (queue ++ [a]).length ≤ unseen ids found + queue.length
  rw [List.length_append, List.length_singleton]
  omega

theorem toDo_foldl_le {α : Type} {ids : List ObjectId}
    {note : List ObjectId × List α → ObjectId → List ObjectId × List α}
    (h : ∀ s id, toDo ids (note s id) ≤ toDo ids s) (next : List ObjectId)
    (s : List ObjectId × List α) : toDo ids (next.foldl note s) ≤ toDo ids s := by
  induction next generalizing s with
  | nil => exact Nat.le_refl _
  | cons id next ih => exact Nat.le_trans (ih _) (h s id)

/-- Notes an id that is new and defined, with its object last among those whose edges are to be
followed. -/
def noteObject (os : List Object) (s : List ObjectId × List Object) (id : ObjectId) :
    List ObjectId × List Object :=
  if id ∈ s.1 then s
  else
    match definition? os id with
    | some o => (id :: s.1, s.2 ++ [o])
    | none => s

theorem toDo_noteObject_le (os : List Object) (s : List ObjectId × List Object) (id : ObjectId) :
    toDo (os.map Object.id) (noteObject os s id) ≤ toDo (os.map Object.id) s := by
  unfold noteObject
  split
  · exact Nat.le_refl _
  · next hnew =>
    split
    · next o ho =>
      have hid : id ∈ os.map Object.id := isSome_definition?.1 (by rw [ho]; rfl)
      exact toDo_noted_le hid hnew s.2 o
    · exact Nat.le_refl _

/-- The ids that were found, and all that edges between defined objects lead to from the objects
that wait in the queue. -/
def gatherFrom (os : List Object) (found : List ObjectId) (queue : List Object) :
    List ObjectId :=
  match queue with
  | [] => found
  | o :: queue =>
    let next := o.destinations.foldl (noteObject os) (found, queue)
    gatherFrom os next.1 next.2
termination_by toDo (os.map Object.id) (found, queue)
decreasing_by
  exact Nat.lt_succ_of_le (toDo_foldl_le (toDo_noteObject_le os) o.destinations (found, queue))

/-- Notes an id that is defined and new, last among those whose edges are to be followed. -/
def note (defs : OrderedMap ObjectId Object) (s : List ObjectId × List ObjectId) (id : ObjectId) :
    List ObjectId × List ObjectId :=
  if defs.contains id && id ∉ s.1 then (id :: s.1, s.2 ++ [id]) else s

theorem toDo_note_le (defs : OrderedMap ObjectId Object) (s : List ObjectId × List ObjectId)
    (id : ObjectId) : toDo defs.keys (note defs s id) ≤ toDo defs.keys s := by
  unfold note
  split
  · next h =>
    rw [Bool.and_eq_true, decide_eq_true_iff] at h
    obtain ⟨o, ho⟩ := Option.isSome_iff_exists.1 h.1
    have hkey : id ∈ defs.keys :=
      List.mem_map.2 ⟨(id, o), (defs.get?_eq_some_iff id o).1 ho, rfl⟩
    exact toDo_noted_le hkey h.2 s.2 id
  · exact Nat.le_refl _

/-- The ids that were found, and all that edges between defined objects lead to from those that
wait in the queue. -/
def searchFrom (defs : OrderedMap ObjectId Object) (found queue : List ObjectId) :
    List ObjectId :=
  match queue with
  | [] => found
  | id :: queue =>
    match defs.get? id with
    | none => searchFrom defs found queue
    | some o =>
      let next := o.destinations.foldl (note defs) (found, queue)
      searchFrom defs next.1 next.2
termination_by toDo defs.keys (found, queue)
decreasing_by
  · exact Nat.lt_succ_self _
  · exact Nat.lt_succ_of_le (toDo_foldl_le (toDo_note_le defs) o.destinations (found, queue))

structure EventGraph where
  root : ObjectId
  model : Model
  nodes : OrderedMap ObjectId Object
  deriving DecidableEq

namespace EventGraph

/-- The ids that a search from the root finds. -/
def reached (g : EventGraph) : List ObjectId := searchFrom g.nodes [g.root] [g.root]

/-- The nodes that edges lead to from the root. -/
def reachable (g : EventGraph) : OrderedMap ObjectId Object :=
  let ids := g.reached
  g.nodes.filter fun id _ => id ∈ ids

/-- The graph of the event `root` among objects, if an event has that id. -/
def extract? (root : ObjectId) (model : Model) (os : List Object) : Option EventGraph :=
  match definition? os root with
  | some o =>
    if o.objectClass = .event then
      let ids := gatherFrom os [root] [o]
      some ⟨root, model, definitions (os.filter fun o => o.id ∈ ids)⟩
    else none
  | none => none

def get? (g : EventGraph) (id : ObjectId) : Option Object := g.nodes.get? id

def contains (g : EventGraph) (id : ObjectId) : Bool := g.nodes.contains id

def size (g : EventGraph) : Nat := g.nodes.size

/-- The event itself. -/
def rootObject? (g : EventGraph) : Option Object := g.get? g.root

def ofClass (g : EventGraph) (c : ObjectClass) : List Object :=
  g.nodes.values.filter (·.objectClass = c)

/-- The first node of a class. -/
def firstOf? (g : EventGraph) (c : ObjectClass) : Option Object := (g.ofClass c).head?

/-- Puts an object in under its id. -/
def insert (g : EventGraph) (o : Object) : EventGraph :=
  { g with nodes := g.nodes.insert o.id o }

/-- Changes the node of an id, if there is one. -/
def update (g : EventGraph) (id : ObjectId) (f : Object → Object) : EventGraph :=
  match g.nodes.get? id with
  | some o => { g with nodes := g.nodes.insert id (f o) }
  | none => g

/-- The objects with the event in front. -/
def objects (g : EventGraph) : List Object :=
  g.rootObject?.toList ++ (g.nodes.erase g.root).values

/-- The graph without the nodes that a search from the root does not find, and how many these
are. -/
def prune (g : EventGraph) : EventGraph × Nat :=
  let left := g.reachable
  ({ g with nodes := left }, g.size - left.size)

end EventGraph

end AudioProject
