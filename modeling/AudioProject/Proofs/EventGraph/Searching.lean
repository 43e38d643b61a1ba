import AudioProject.EventGraph
import AudioProject.Proofs.OrderedMap
import Mathlib.Logic.Relation

/-
  What is found by following the edges between defined objects. A search in breadth notes an id
  before it follows the edges of the id, and the ids that it has noted but not followed wait in the
  queue (`Searching`). Where the queue is empty it has found just the ids that its root leads to
  (`mem_searchFrom_iff`). A search among objects, with the definitions themselves in its queue,
  finds the same (`gatherFrom_eq_searchFrom`).
-/

namespace AudioProject

open Relation

variable {defs : OrderedMap ObjectId Object} {found queue ids : List ObjectId}
  {a b id root : ObjectId} {o : Object} {os : List Object}

/-- An edge leads from one defined object to another. -/
def Leads (defs : OrderedMap ObjectId Object) (a b : ObjectId) : Prop :=
  ∃ o, defs.get? a = some o ∧ b ∈ o.destinations ∧ defs.contains b = true

/-! ## With ids in the queue -/

/-- The ids found are the old ones and those of the new ones that are defined. -/
theorem mem_found_foldl_note {s : List ObjectId × List ObjectId} :
    id ∈ (ids.foldl (note defs) s).1 ↔ id ∈ s.1 ∨ id ∈ ids ∧ defs.contains id = true := by
  induction ids generalizing s with
  | nil => simp
  | cons next ids ih =>
    rw [List.foldl_cons, ih, note]
    by_cases hdefined : defs.contains next = true
    · by_cases hfound : next ∈ s.1
      · simp only [hdefined, hfound, not_true_eq_false, decide_false, Bool.and_false,
          Bool.false_eq_true, if_false, List.mem_cons]
        grind
      · simp only [hdefined, hfound, not_false_eq_true, decide_true, Bool.and_true, if_true,
          List.mem_cons]
        grind
    · grind

/-- Those that were not found before wait. -/
theorem mem_queue_foldl_note {s : List ObjectId × List ObjectId} :
    id ∈ (ids.foldl (note defs) s).2 ↔
      id ∈ s.2 ∨ id ∈ ids ∧ defs.contains id = true ∧ id ∉ s.1 := by
  induction ids generalizing s with
  | nil => simp
  | cons next ids ih =>
    rw [List.foldl_cons, ih, note]
    grind

/-- A search on its way: what it has found the root leads to, and what it has found leads on to
what it has found, but from those that wait in the queue. -/
structure Searching (defs : OrderedMap ObjectId Object) (root : ObjectId)
    (found queue : List ObjectId) : Prop where
  started : root ∈ found
  reaches : ∀ id ∈ found, ReflTransGen (Leads defs) root id
  waits : queue ⊆ found
  closed : ∀ a ∈ found, a ∉ queue → ∀ b, Leads defs a b → b ∈ found

namespace Searching

theorem start (defs : OrderedMap ObjectId Object) (root : ObjectId) :
    Searching defs root [root] [root] where
  started := List.mem_singleton_self root
  reaches id h := by rw [List.mem_singleton.1 h]
  waits := List.Subset.refl _
  closed _ ha hqueue := absurd ha hqueue

/-- An id that is not defined leads nowhere. -/
theorem skip (h : Searching defs root found (id :: queue)) (hnone : defs.get? id = none) :
    Searching defs root found queue := by
  refine ⟨h.started, h.reaches, fun a ha => h.waits (List.mem_cons_of_mem _ ha), ?_⟩
  intro a ha hqueue b hab
  refine h.closed a ha ?_ b hab
  intro hmem
  rcases List.mem_cons.1 hmem with rfl | hmem
  · obtain ⟨o, ho, -⟩ := hab
    rw [hnone] at ho
    cases ho
  · exact hqueue hmem

/-- The ids that the first of the queue leads to are noted. -/
theorem follow (h : Searching defs root found (id :: queue)) (ho : defs.get? id = some o) :
    Searching defs root (o.destinations.foldl (note defs) (found, queue)).1
      (o.destinations.foldl (note defs) (found, queue)).2 := by
  refine ⟨mem_found_foldl_note.2 (Or.inl h.started), fun a ha => ?_, fun a ha => ?_, ?_⟩
  · rcases mem_found_foldl_note.1 ha with ha | ⟨ha, hdefined⟩
    · exact h.reaches a ha
    · exact (h.reaches id (h.waits List.mem_cons_self)).tail ⟨o, ho, ha, hdefined⟩
  · rcases mem_queue_foldl_note.1 ha with ha | ⟨ha, hdefined, -⟩
    · exact mem_found_foldl_note.2 (Or.inl (h.waits (List.mem_cons_of_mem _ ha)))
    · exact mem_found_foldl_note.2 (Or.inr ⟨ha, hdefined⟩)
  · intro a ha hqueue b hab
    rw [mem_queue_foldl_note, not_or] at hqueue
    -- what is noted now waits
    have hold : a ∈ found := by
      rcases mem_found_foldl_note.1 ha with ha | ⟨ha, hdefined⟩
      · exact ha
      · by_contra hnew
        exact hqueue.2 ⟨ha, hdefined, hnew⟩
    by_cases hfirst : a = id
    · subst hfirst
      obtain ⟨o', ho', hb, hdefined⟩ := hab
      obtain rfl := Option.some.inj (ho.symm.trans ho')
      exact mem_found_foldl_note.2 (Or.inr ⟨hb, hdefined⟩)
    · have hwaits : a ∉ id :: queue := fun hmem =>
        hqueue.1 ((List.mem_cons.1 hmem).resolve_left hfirst)
      exact mem_found_foldl_note.2 (Or.inl (h.closed a hold hwaits b hab))

end Searching

/-- A search comes to an end with just the ids that its root leads to. -/
theorem mem_searchFrom_iff (h : Searching defs root found queue) :
    id ∈ searchFrom defs found queue ↔ ReflTransGen (Leads defs) root id := by
  fun_induction searchFrom defs found queue with
  | case1 found =>
    refine ⟨h.reaches id, fun hreaches => ?_⟩
    induction hreaches with
    | refl => exact h.started
    | tail _ hlast ih => exact h.closed _ ih List.not_mem_nil _ hlast
  | case2 found id queue hnone ih => exact ih (h.skip hnone)
  | case3 found id queue o ho next ih => exact ih (h.follow ho)

theorem EventGraph.mem_reached_iff (g : EventGraph) :
    id ∈ g.reached ↔ ReflTransGen (Leads g.nodes) g.root id :=
  mem_searchFrom_iff (.start g.nodes g.root)

/-! ## Definitions -/

theorem get?_definitions (os : List Object) (id : ObjectId) :
    (definitions os).get? id = definition? os id := by
  unfold definitions definition?
  induction os with
  | nil => rfl
  | cons o os ih =>
    rw [List.map_cons, OrderedMap.get?_ofList_cons, ih, List.reverse_cons, List.find?_append,
      List.find?_singleton]
    by_cases hid : o.id = id <;> simp [hid]

theorem contains_definitions : (definitions os).contains id = true ↔ id ∈ os.map Object.id := by
  rw [OrderedMap.contains, get?_definitions, isSome_definition?]

theorem mem_of_definitions (h : (definitions os).get? id = some o) : o ∈ os ∧ o.id = id := by
  obtain ⟨o', ho', heq⟩ := List.mem_map.1 (OrderedMap.mem_of_get?_ofList h)
  obtain ⟨hid, rfl⟩ := Prod.mk.inj heq
  exact ⟨ho', hid⟩

theorem exists_definition (h : o ∈ os) : ∃ o', (definitions os).get? o.id = some o' :=
  OrderedMap.exists_get?_ofList (List.mem_map.2 ⟨o, h, rfl⟩)

/-- Leaving objects out by their ids leaves just their definitions out. -/
theorem definitions_filter (os : List Object) (p : ObjectId → Bool) :
    definitions (os.filter fun o => p o.id) = (definitions os).filter fun id _ => p id := by
  unfold definitions
  rw [← OrderedMap.ofList_filter, List.filter_map]
  rfl

/-! ## With objects in the queue -/

/-- The objects that wait are the definitions of the ids that would. -/
theorem foldl_noteObject (ids found : List ObjectId) {waiting : List Object}
    (h : ∀ o ∈ waiting, definition? os o.id = some o) :
    (∀ o ∈ (ids.foldl (noteObject os) (found, waiting)).2, definition? os o.id = some o) ∧
      ids.foldl (note (definitions os)) (found, waiting.map Object.id) =
        ((ids.foldl (noteObject os) (found, waiting)).1,
          (ids.foldl (noteObject os) (found, waiting)).2.map Object.id) := by
  induction ids generalizing found waiting with
  | nil => exact ⟨h, rfl⟩
  | cons id ids ih =>
    rw [List.foldl_cons, List.foldl_cons, note, OrderedMap.contains, get?_definitions, noteObject]
    by_cases hfound : id ∈ found
    · simpa [hfound] using ih found h
    · cases ho : definition? os id with
      | none => simpa [hfound] using ih found h
      | some o =>
        have hid : o.id = id := (mem_of_definitions ((get?_definitions os id).trans ho)).2
        have hnext : ∀ q ∈ waiting ++ [o], definition? os q.id = some q := by
          intro q hq
          rcases List.mem_append.1 hq with hq | hq
          · exact h q hq
          · rw [List.mem_singleton.1 hq, hid, ho]
        simpa [hfound, hid] using ih (id :: found) hnext

/-- With the definitions in the queue a search finds what it finds with their ids. -/
theorem gatherFrom_eq_searchFrom {waiting : List Object}
    (h : ∀ o ∈ waiting, definition? os o.id = some o) :
    gatherFrom os found waiting = searchFrom (definitions os) found (waiting.map Object.id) := by
  fun_induction gatherFrom os found waiting with
  | case1 found => rw [List.map_nil, searchFrom]
  | case2 found o waiting next ih =>
    have hfirst := (get?_definitions os o.id).trans (h o List.mem_cons_self)
    obtain ⟨hnext, hsame⟩ := foldl_noteObject o.destinations found fun q hq =>
      h q (List.mem_cons_of_mem _ hq)
    rw [List.map_cons, searchFrom, hfirst]
    dsimp only
    rw [hsame]
    exact ih hnext

end AudioProject
