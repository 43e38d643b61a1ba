import AudioProject.Proofs.EventGraph.Root

/-
  What pruning leaves: exactly the nodes that the root leads to (`get?_prune_eq_some`), and they
  lead to the same nodes as before.
-/

namespace AudioProject

open Relation

variable {id : ObjectId} {o : Object}

namespace EventGraph

variable {g : EventGraph}

/-- Edges between nodes lead from the root to a node. -/
def Reaches (g : EventGraph) (id : ObjectId) : Prop := ReflTransGen (Leads g.nodes) g.root id

/-- Pruning keeps just the nodes that the root leads to. -/
theorem get?_prune_eq_some : g.prune.1.get? id = some o ↔ g.Reaches id ∧ g.get? id = some o := by
  have hreaches : id ∈ g.reached ↔ g.Reaches id := g.mem_reached_iff
  rw [get?_prune, ← hreaches]
  split
  · next hid => simp [hid]
  · next hid => simp [hid]

theorem contains_prune : g.prune.1.contains id = true ↔ g.Reaches id ∧ g.contains id = true := by
  unfold contains OrderedMap.contains
  rw [Option.isSome_iff_exists, Option.isSome_iff_exists]
  constructor
  · rintro ⟨o, ho⟩
    obtain ⟨hreaches, ho⟩ := get?_prune_eq_some.1 ho
    exact ⟨hreaches, o, ho⟩
  · rintro ⟨hreaches, o, ho⟩
    exact ⟨o, get?_prune_eq_some.2 ⟨hreaches, ho⟩⟩

/-- The nodes that are left lead to each other as before. -/
theorem reaches_prune (h : g.Reaches id) : g.prune.1.Reaches id := by
  unfold Reaches at h
  induction h with
  | refl => exact .refl
  | @tail a b hfirst hlast ih =>
    obtain ⟨o, ho, hb, hdefined⟩ := hlast
    refine ih.tail ⟨o, get?_prune_eq_some.2 ⟨hfirst, ho⟩, hb, ?_⟩
    exact contains_prune.2 ⟨hfirst.tail ⟨o, ho, hb, hdefined⟩, hdefined⟩

/-- Each node that goes is counted. -/
theorem size_prune (g : EventGraph) : g.prune.1.size + g.prune.2 = g.size := by
  have hle : g.reachable.size ≤ g.size := List.length_filter_le _ _
  show g.reachable.size + (g.size - g.reachable.size) = g.size
  omega

end EventGraph

end AudioProject
