import AudioProject.ObjectId
import AudioProject.OrderedMap
import AudioProject.Unseen

/-
  Forests of ids by parent pointers. Nothing keeps a pointer from closing a cycle, so each walk
  to the top remembers where it has been. The children of an id are kept beside the pointers.
-/

namespace AudioProject

/-- Puts `id` into an ascending list, once. -/
def insertId (id : ObjectId) : List ObjectId → List ObjectId
  | [] => [id]
  | x :: xs =>
    if id = x then x :: xs
    else if id.text < x.text then id :: x :: xs
    else x :: insertId id xs

structure Hierarchy where
  parents : OrderedMap ObjectId ObjectId := ∅
  /-- The children of each id that has had one, ascending. -/
  childLists : OrderedMap ObjectId (List ObjectId) := ∅

namespace Hierarchy

def empty : Hierarchy := {}

def parent? (h : Hierarchy) (id : ObjectId) : Option ObjectId := h.parents.get? id

/-- The direct children, ascending. -/
def children (h : Hierarchy) (id : ObjectId) : List ObjectId := (h.childLists.get? id).getD []

/-- The child lists without `child` under its present parent. -/
def detached (h : Hierarchy) (child : ObjectId) : OrderedMap ObjectId (List ObjectId) :=
  match h.parent? child with
  | some old => h.childLists.insert old ((h.children old).filter (· ≠ child))
  | none => h.childLists

/-- Makes `parent` the parent of `child`, which leaves the one it had. -/
def addEdge (h : Hierarchy) (child parent : ObjectId) : Hierarchy :=
  let lists := h.detached child
  { parents := h.parents.insert child parent
    childLists := lists.insert parent (insertId child ((lists.get? parent).getD [])) }

theorem mem_values_of_parent? {h : Hierarchy} {id p : ObjectId} (hp : h.parent? id = some p) :
    p ∈ h.parents.values :=
  List.mem_map.2 ⟨(id, p), (h.parents.get?_eq_some_iff id p).1 hp, rfl⟩

/-- The parents from `id` on that are not in `seen`, up to the first that repeats. -/
def ancestorsFrom (h : Hierarchy) (seen : List ObjectId) (id : ObjectId) : List ObjectId :=
  match _hp : h.parent? id with
  | none => []
  | some p => if _hs : p ∈ seen then [] else p :: h.ancestorsFrom (p :: seen) p
termination_by unseen h.parents.values seen
decreasing_by exact unseen_cons_lt (mem_values_of_parent? _hp) _hs

/-- The parent, its parent and so on, nearest first and each once. -/
def ancestors (h : Hierarchy) (id : ObjectId) : List ObjectId := h.ancestorsFrom [] id

/-- Whether a walk to the top from `id`, which has passed `seen`, meets `ancestor`. -/
def meets (h : Hierarchy) (seen : List ObjectId) (id ancestor : ObjectId) : Bool :=
  match _hp : h.parent? id with
  | none => false
  | some p =>
    if p = ancestor then true
    else if _hs : p ∈ seen then false
    else h.meets (p :: seen) p ancestor
termination_by unseen h.parents.values seen
decreasing_by exact unseen_cons_lt (mem_values_of_parent? _hp) _hs

/-- Whether one or more steps to a parent lead from `id` to `ancestor`. -/
def isDescendant (h : Hierarchy) (id ancestor : ObjectId) : Bool := h.meets [] id ancestor

end Hierarchy

end AudioProject
