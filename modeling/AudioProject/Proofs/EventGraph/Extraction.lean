import AudioProject.Proofs.EventGraph.Copies
import AudioProject.Proofs.EventGraph.Reachable
import Mathlib.Data.List.Induction
import Mathlib.Data.List.Permutation

/-
  The event among objects. An id may be defined more than once, or by no object at all; its last
  object counts (`definition?`), at the place of its first. An event takes with it just the ids that
  edges between defined ids lead to, each with its whole definition, and there is one exactly if
  the definition of its id is an event: `extract_closure`. Its objects with the event in front are
  the event again (`extract?_objects`), which is what its document is made of.
-/

namespace AudioProject

open Relation

variable {os : List Object} {id root : ObjectId} {o : Object} {model : Model}

/-! ## The order of definitions -/

/-- Keys stand in the order in which they first came. -/
theorem OrderedMap.pairwise_keys_ofList {κ ν : Type} [DecidableEq κ] (ps : List (κ × ν)) :
    (ofList ps).keys.Pairwise fun a b =>
      (ps.map Prod.fst).idxOf a < (ps.map Prod.fst).idxOf b := by
  induction ps using List.reverseRecOn with
  | nil => exact .nil
  | append_singleton ps p ih =>
    have hlast : ofList (ps ++ [p]) = (ofList ps).insert p.1 p.2 := by
      unfold ofList
      rw [List.foldl_append]
      rfl
    have hmem : ∀ k ∈ (ofList ps).keys, k ∈ ps.map Prod.fst := by
      intro k hk
      obtain ⟨v, hv⟩ := ((ofList ps).mem_keys_iff k).1 hk
      exact List.mem_map.2 ⟨(k, v), mem_of_get?_ofList hv, rfl⟩
    have hold : (ofList ps).keys.Pairwise fun a b =>
        ((ps ++ [p]).map Prod.fst).idxOf a < ((ps ++ [p]).map Prod.fst).idxOf b := by
      refine ih.imp_of_mem fun {a b} ha hb hab => ?_
      rw [List.map_append, List.idxOf_append_of_mem (hmem a ha),
        List.idxOf_append_of_mem (hmem b hb)]
      exact hab
    rw [hlast, keys_insert]
    split
    · exact hold
    · next hnew =>
      refine List.pairwise_append.2 ⟨hold, List.pairwise_singleton _ _, fun a ha b hb => ?_⟩
      obtain rfl := List.mem_singleton.1 hb
      have hfresh : p.1 ∉ ps.map Prod.fst := by
        intro hin
        obtain ⟨q, hq, hsame⟩ := List.mem_map.1 hin
        obtain ⟨v, hv⟩ := exists_get?_ofList hq
        exact hnew (((ofList ps).mem_keys_iff p.1).2 ⟨v, hsame ▸ hv⟩)
      rw [List.map_append, List.idxOf_append_of_mem (hmem a ha),
        List.idxOf_append_of_notMem hfresh]
      exact Nat.lt_of_lt_of_le (List.idxOf_lt_length_of_mem (hmem a ha)) (Nat.le_add_right _ _)

theorem pairwise_keys_definitions (os : List Object) : (definitions os).keys.Pairwise fun a b =>
    (os.map Object.id).idxOf a < (os.map Object.id).idxOf b := by
  have hpairs := OrderedMap.pairwise_keys_ofList (os.map fun o => (o.id, o))
  rwa [List.map_map] at hpairs

/-! ## Edges between defined ids -/

/-- An edge leads from the definition of an id to another id that is defined. -/
def LeadsAmong (os : List Object) (a b : ObjectId) : Prop :=
  ∃ o, definition? os a = some o ∧ b ∈ o.destinations ∧ b ∈ os.map Object.id

theorem leads_definitions : Leads (definitions os) = LeadsAmong os := by
  funext a b
  unfold Leads LeadsAmong
  simp only [get?_definitions, contains_definitions]

/-- Edges ask for definitions only, in whichever order these stand. -/
theorem leads_congr {defs defs' : OrderedMap ObjectId Object}
    (h : ∀ id, defs'.get? id = defs.get? id) : Leads defs' = Leads defs := by
  funext a b
  unfold Leads OrderedMap.contains
  simp only [h]

namespace EventGraph

variable {g : EventGraph}

theorem reaches_whole : (whole root model os).Reaches id ↔
    ReflTransGen (LeadsAmong os) root id := by
  unfold Reaches whole
  rw [leads_definitions]

/-! ## The objects of an event -/

theorem get?_definitions_objects (h : g.IsKeyed) (id : ObjectId) :
    (definitions g.objects).get? id = g.get? id := by
  apply Option.ext
  intro o
  have hwhole : (definitions g.objects).get? id = some o ↔
      o ∈ (definitions g.objects).values ∧ o.id = id :=
    (isKeyed_whole g.root g.model g.objects).get?_eq_some_iff
  rw [hwhole, values_definitions h.nodup_objects]
  constructor
  · rintro ⟨hmem, rfl⟩
    obtain ⟨id, ho⟩ := mem_objects hmem
    rwa [h id o ho]
  · intro ho
    exact ⟨mem_objects_of_get? ho, h id o ho⟩

/-- Pruning leaves the values whose ids are reached, in their order. -/
theorem IsKeyed.values_prune (h : g.IsKeyed) :
    g.prune.1.nodes.values = g.nodes.values.filter fun o => o.id ∈ g.reached := by
  unfold prune reachable OrderedMap.filter OrderedMap.values
  dsimp only
  rw [List.filter_map]
  refine congrArg _ (List.filter_congr fun e he => ?_)
  dsimp only [Function.comp]
  rw [h e.1 e.2 ((g.nodes.get?_eq_some_iff e.1 e.2).2 he)]

/-- The part of an event that its root leads to, with the event in front. -/
structure IsCore (g : EventGraph) (model : Model) (g' : EventGraph) : Prop where
  root : g'.root = g.root
  model : g'.model = model
  node : ∀ id o, g'.get? id = some o ↔ g.Reaches id ∧ g.get? id = some o
  first : g'.nodes.values.head? = g.rootObject?
  order : g'.nodes.values.Sublist g.objects

/-- Among the objects of an event there is the event again, without what it does not lead to. -/
theorem extract?_objects (hevent : g.HasEvent) (hkeyed : g.IsKeyed) (model : Model) :
    ∃ g', extract? g.root model g.objects = some g' ∧ IsCore g model g' := by
  obtain ⟨o, ho, hid, hclass⟩ := hevent
  have hget := get?_definitions_objects hkeyed
  have hdefined : ∃ o, definition? g.objects g.root = some o ∧ o.objectClass = .event := by
    refine ⟨o, ?_, hclass⟩
    rw [← get?_definitions, hget, ho]
  have hreaches : ∀ id, (whole g.root model g.objects).Reaches id ↔ g.Reaches id := by
    intro id
    unfold Reaches whole
    rw [leads_congr hget]
  have hvalues := (isKeyed_whole g.root model g.objects).values_prune
  have hobjects : (whole g.root model g.objects).nodes.values = g.objects :=
    values_definitions hkeyed.nodup_objects
  rw [hobjects] at hvalues
  refine ⟨_, extract?_eq_some_iff.2 ⟨hdefined, rfl⟩, rfl, rfl, fun id q => ?_, ?_, ?_⟩
  · rw [get?_prune_eq_some, hreaches, ← hget id]
    rfl
  · have hmem : o.id ∈ (whole g.root model g.objects).reached := by
      rw [hid]
      exact (mem_reached_iff _).2 .refl
    have hrest : g.objects = o :: (g.nodes.erase g.root).values := by
      unfold objects rootObject?
      rw [ho]
      rfl
    have hfront : g.rootObject? = some o := ho
    rw [hvalues, hfront]
    show (g.objects.filter fun q =>
      q.id ∈ (whole g.root model g.objects).reached).head? = some o
    generalize (whole g.root model g.objects).reached = ids at hmem
    rw [hrest, List.filter_cons_of_pos (by simpa using hmem)]
    rfl
  · rw [hvalues]
    exact List.filter_sublist

/-! ## The closure -/

/-- The event `g` is what the event of id `root` among `os` leads to. -/
structure IsClosure (os : List Object) (root : ObjectId) (model : Model) (g : EventGraph) :
    Prop where
  isRoot : g.root = root
  isModel : g.model = model
  /-- Its nodes are the definitions of the ids that edges between defined ids lead to. -/
  node : ∀ id o, g.get? id = some o ↔
    ReflTransGen (LeadsAmong os) root id ∧ definition? os id = some o
  /-- They stand in the order in which their ids first came. -/
  order : g.nodes.keys.Pairwise fun a b =>
    (os.map Object.id).idxOf a < (os.map Object.id).idxOf b
  /-- Where an edge of a node leads, there is a node exactly if an object has that id. -/
  destination : ∀ id o, g.get? id = some o → ∀ d ∈ o.destinations,
    g.contains d = true ↔ d ∈ os.map Object.id
  inside : ∀ id, g.contains id = true → id ∈ os.map Object.id

theorem isClosure_extract? (h : extract? root model os = some g) :
    IsClosure os root model g := by
  obtain ⟨hdefined, rfl⟩ := extract?_eq_some_iff.1 h
  have hnode : ∀ id o, (whole root model os).prune.1.get? id = some o ↔
      ReflTransGen (LeadsAmong os) root id ∧ definition? os id = some o := by
    intro id o
    rw [get?_prune_eq_some, reaches_whole, ← get?_definitions]
    rfl
  have hinside : ∀ id, (whole root model os).prune.1.contains id = true →
      id ∈ os.map Object.id := by
    intro id hid
    exact contains_definitions.1 (contains_prune.1 hid).2
  refine ⟨rfl, rfl, hnode, ?_, fun id o ho d hd => ⟨hinside d, fun hmem => ?_⟩, hinside⟩
  · have hkeys : (whole root model os).prune.1.nodes.keys.Sublist (definitions os).keys :=
      List.filter_sublist.map _
    exact (pairwise_keys_definitions os).sublist hkeys
  · obtain ⟨hreaches, ho⟩ := (hnode id o).1 ho
    exact contains_prune.2 ⟨reaches_whole.2 (hreaches.tail ⟨o, ho, hd, hmem⟩),
      contains_definitions.2 hmem⟩

/-- All of an event is reached in it, so that its objects are just this event again. -/
theorem extract?_objects_extract? (h : extract? root model os = some g) (model' : Model) :
    ∃ g', extract? root model' g.objects = some g' ∧ g'.root = root ∧ g'.model = model' ∧
      (∀ id, g'.get? id = g.get? id) ∧ g'.nodes.values = g.objects := by
  obtain ⟨hevent, hkeyed⟩ := hasEvent_extract h
  obtain ⟨hdefined, rfl⟩ := extract?_eq_some_iff.1 h
  obtain ⟨g', hg', hcore⟩ := extract?_objects hevent hkeyed model'
  have hall : ∀ id o, (whole root model os).prune.1.get? id = some o →
      (whole root model os).prune.1.Reaches id := by
    intro id o ho
    exact reaches_prune (get?_prune_eq_some.1 ho).1
  have hget : ∀ id, g'.get? id = (whole root model os).prune.1.get? id := by
    intro id
    refine Option.ext fun o => (hcore.node id o).trans ?_
    exact and_iff_right_of_imp (hall id o)
  refine ⟨g', hg', hcore.root, hcore.model, hget, ?_⟩
  -- as many values as there are objects, in the same order
  refine hcore.order.eq_of_length_le ?_
  have hsubset : (whole root model os).prune.1.objects ⊆ g'.nodes.values := by
    intro o ho
    obtain ⟨id, ho⟩ := mem_objects ho
    rw [← hget id] at ho
    exact ((hasEvent_extract hg').2.get?_eq_some_iff.1 ho).1
  exact (List.Nodup.of_map _ hkeyed.nodup_objects).length_le_of_subset hsubset

/-- There is an event among objects exactly if the definition of its id is one. It is the closure
of its root, and its objects are this event again. -/
theorem extract_closure (root : ObjectId) (model : Model) (os : List Object) :
    (extract? root model os = none ↔
      ¬ ∃ o, definition? os root = some o ∧ o.objectClass = .event) ∧
    ∀ g, extract? root model os = some g → IsClosure os root model g ∧
      ∀ model', ∃ g', extract? root model' g.objects = some g' ∧ g'.root = root ∧
        g'.model = model' ∧ (∀ id, g'.get? id = g.get? id) ∧ g'.nodes.values = g.objects := by
  constructor
  · rw [Option.eq_none_iff_forall_ne_some]
    simp only [ne_eq, extract?_eq_some_iff]
    exact ⟨fun h hdefined => h _ ⟨hdefined, rfl⟩, fun h g hg => h hg.1⟩
  · intro g hg
    exact ⟨isClosure_extract? hg, extract?_objects_extract? hg⟩

/-! ### A sound that leads back and out -/

def knellId : ObjectId := ⟨"knell", by decide⟩

def tolling : Object :=
  ({ id := knellId, objectClass := .event } : Object).setEdge "sound" [⟨"rope", by decide⟩]

/-- What the rope is in the end leads back to the knell and to a tower that is no object. -/
def rope : Object :=
  ({ id := ⟨"rope", by decide⟩, objectClass := .singleSound } : Object).setEdge "hangs"
    [knellId, ⟨"tower", by decide⟩]

/-- The rope is defined twice, and nothing leads to the clapper. -/
def knell : List Object :=
  [{ id := rope.id, objectClass := .multiSound }, tolling,
    ({ id := ⟨"clapper", by decide⟩, objectClass := .groupTrack } : Object).setEdge "event"
      [knellId],
    rope]

def knellGraph : EventGraph :=
  ⟨knellId, ⟨"Studio.02.00.03", by decide⟩, definitions [rope, tolling]⟩

theorem reached_knell :
    (whole knellId knellGraph.model knell).reached = [⟨"rope", by decide⟩, knellId] := by
  cbv

theorem extract_knell : extract? knellId knellGraph.model knell = some knellGraph := by
  have hget : (definitions knell).get? knellId = some tolling := by decide
  have hnodes : (whole knellId knellGraph.model knell).reachable = definitions [rope, tolling] := by
    unfold reachable
    rw [reached_knell]
    decide
  refine extract?_eq_some_iff.2 ⟨⟨_, (get?_definitions _ _).symm.trans hget, rfl⟩, ?_⟩
  unfold prune
  rw [hnodes]
  rfl

theorem extract_closure_knell : extract? knellId knellGraph.model knell = some knellGraph ∧
    IsClosure knell knellId knellGraph.model knellGraph ∧
    knellGraph.nodes.keys = [⟨"rope", by decide⟩, knellId] :=
  ⟨extract_knell, ((extract_closure knellId knellGraph.model knell).2 _ extract_knell).1,
    by decide⟩

end EventGraph

end AudioProject
