import AudioProject.Proofs.EventGraph.Extraction

/-
  Pruning is extraction. The nodes of a graph are the definitions that its values make, so the
  search that finds an event among objects and the one that prunes it follow the same edges from
  the same root: `prune_extracts`. What is left after pruning is all reached, so there is nothing to
  prune in it (`prune_prune`).
-/

namespace AudioProject.EventGraph

variable {g : EventGraph} {id : ObjectId}

/-- The nodes of a graph are what its values define. -/
theorem IsKeyed.definitions_values (h : g.IsKeyed) : definitions g.nodes.values = g.nodes := by
  have hpairs : g.nodes.values.map (fun o => (o.id, o)) = g.nodes.toList := by
    unfold OrderedMap.values
    rw [List.map_map]
    refine (List.map_congr_left fun p hp => ?_).trans (List.map_id _)
    have hget : g.get? p.1 = some p.2 := (g.nodes.get?_eq_some_iff p.1 p.2).2 hp
    exact Prod.ext (h p.1 p.2 hget) rfl
  unfold definitions
  rw [hpairs, OrderedMap.ofList_toList]

/-- The nodes of an event make the event that pruning leaves. -/
theorem IsKeyed.extract?_values (h : g.IsKeyed)
    (hevent : ∃ o, g.get? g.root = some o ∧ o.objectClass = .event) (model : Model) :
    extract? g.root model g.nodes.values = some { g.prune.1 with model := model } := by
  obtain ⟨o, ho, hclass⟩ := hevent
  rw [extract?_eq_some_iff, ← get?_definitions]
  unfold whole
  rw [h.definitions_values]
  exact ⟨⟨o, ho, hclass⟩, rfl⟩

/-- Pruning counts the nodes that it takes away. -/
theorem removed_prune (g : EventGraph) :
    g.prune.2 = g.nodes.keys.countP fun id => !g.prune.1.contains id := by
  have hkept : g.prune.1.size = g.nodes.keys.countP fun id => g.prune.1.contains id := by
    have hcontains : ∀ id ∈ g.nodes.keys,
        (g.prune.1.contains id = true ↔ id ∈ g.reached) := by
      intro id hid
      obtain ⟨o, ho⟩ := (g.nodes.mem_keys_iff id).1 hid
      have hget : g.prune.1.nodes.get? id =
          if id ∈ g.reached then g.get? id else none := get?_prune g id
      unfold contains OrderedMap.contains
      rw [hget, show g.get? id = some o from ho]
      split
      · next hreached => exact iff_of_true rfl hreached
      · next hreached => exact iff_of_false Bool.false_ne_true hreached
    rw [List.countP_congr (q := fun id => decide (id ∈ g.reached))
      (fun id hid => by rw [hcontains id hid, decide_eq_true_iff])]
    unfold OrderedMap.keys
    rw [List.countP_map, List.countP_eq_length_filter]
    rfl
  have hall :=
    List.length_eq_countP_add_countP (l := g.nodes.keys) fun id => g.prune.1.contains id
  have hkeys : g.nodes.keys.length = g.size := List.length_map _
  have hsize := g.size_prune
  simp only [Bool.not_eq_true, Bool.decide_eq_false] at hall
  omega

/-- There is nothing to prune in a graph all of whose nodes are reached. -/
theorem prune_eq_self (h : ∀ id, g.contains id = true → id ∈ g.reached) :
    g.prune = (g, 0) := by
  have hall : g.reachable = g.nodes := by
    refine OrderedMap.ext (List.filter_eq_self.2 fun e he => decide_eq_true ?_)
    exact h e.1 (OrderedMap.contains_of_get? ((g.nodes.get?_eq_some_iff e.1 e.2).2 he))
  unfold prune
  rw [hall]
  exact Prod.ext rfl (Nat.sub_self _)

theorem prune_prune (g : EventGraph) : g.prune.1.prune = (g.prune.1, 0) := by
  refine prune_eq_self fun id hid => (mem_reached_iff _).2 ?_
  exact reaches_prune (contains_prune.1 hid).1

/-- Pruning an event leaves the nodes that extraction would find among its nodes, as they are and
in their order, and tells how many it takes away. Pruning once more takes away none. -/
theorem prune_extracts (hkeyed : g.IsKeyed)
    (hevent : ∃ o, g.get? g.root = some o ∧ o.objectClass = .event) :
    (∀ model, extract? g.root model g.nodes.values = some { g.prune.1 with model := model }) ∧
    g.prune.1.nodes.toList.Sublist g.nodes.toList ∧
    (g.prune.2 = g.nodes.keys.countP fun id => !g.prune.1.contains id) ∧
    g.prune.1.size + g.prune.2 = g.size ∧
    g.prune.1.prune = (g.prune.1, 0) := by
  exact ⟨hkeyed.extract?_values hevent, List.filter_sublist, g.removed_prune, g.size_prune,
    g.prune_prune⟩

/-- Of the knell only the clapper is pruned, to which nothing leads. The rope leads back to the
knell, and to a tower that is no object. -/
theorem prune_extracts_knell :
    (whole knellId knellGraph.model knell).prune = (knellGraph, 1) ∧
    extract? knellId ⟨"Studio.02.01.00", by decide⟩
      (whole knellId knellGraph.model knell).nodes.values =
        some { knellGraph with model := ⟨"Studio.02.01.00", by decide⟩ } ∧
    knellGraph.prune = (knellGraph, 0) := by
  have hpruned : (whole knellId knellGraph.model knell).prune.1 = knellGraph :=
    (extract?_eq_some_iff.1 extract_knell).2.symm
  have hevent : ∃ o, (whole knellId knellGraph.model knell).get? knellId = some o ∧
      o.objectClass = .event := ⟨tolling, by decide, rfl⟩
  obtain ⟨hextract, -, -, hsize, hagain⟩ :=
    prune_extracts (isKeyed_whole knellId knellGraph.model knell) hevent
  rw [hpruned] at hextract hsize hagain
  have hsizes : knellGraph.size = 2 ∧ (whole knellId knellGraph.model knell).size = 3 := by decide
  exact ⟨Prod.ext hpruned (by omega), hextract _, hagain⟩

end AudioProject.EventGraph
