import AudioProject.Proofs.Hierarchy
import Mathlib.Data.List.Induction

/-
  Hierarchies that edges were put into one after the other. Whatever the edges are, an id points to
  the parent in its last edge, the child lists are the inverse of the pointers, and the walk to the
  top follows the pointers, passes no id twice and leaves out none that they lead to:
  `walks_follow_pointers`.

  Nothing keeps an edge from closing a cycle, and an id on a cycle is its own descendant. That none
  ever is can be seen from the edges: each has to lead to a parent which is neither the child nor,
  at the time, below it (`strict_iff_leadOut`).
-/

namespace AudioProject

namespace Hierarchy

variable {h h' : Hierarchy} {child parent id a : ObjectId}

/-! ## Edges in a row -/

/-- The hierarchy with more edges, each from a child to its parent. -/
def addEdges (h : Hierarchy) (es : List (ObjectId × ObjectId)) : Hierarchy :=
  es.foldl (fun h e => h.addEdge e.1 e.2) h

theorem addEdges_cons (h : Hierarchy) (e : ObjectId × ObjectId) (es : List (ObjectId × ObjectId)) :
    h.addEdges (e :: es) = (h.addEdge e.1 e.2).addEdges es := rfl

theorem Coherent.addEdges (hh : h.Coherent) (es : List (ObjectId × ObjectId)) :
    (h.addEdges es).Coherent := by
  induction es generalizing h with
  | nil => exact hh
  | cons e es ih =>
    rw [addEdges_cons]
    exact ih (hh.addEdge e.1 e.2)

/-- The parent in the last edge of a child. -/
def lastParent? (es : List (ObjectId × ObjectId)) (id : ObjectId) : Option ObjectId :=
  (es.reverse.find? fun e => e.1 = id).map Prod.snd

theorem lastParent?_cons (e : ObjectId × ObjectId) (es : List (ObjectId × ObjectId))
    (id : ObjectId) :
    lastParent? (e :: es) id = (lastParent? es id).or (if e.1 = id then some e.2 else none) := by
  unfold lastParent?
  rw [List.reverse_cons, List.find?_append, Option.map_or]
  congr 1
  by_cases hid : e.1 = id <;> simp [hid]

theorem mem_of_lastParent? {es : List (ObjectId × ObjectId)} {p : ObjectId}
    (hp : lastParent? es id = some p) : (id, p) ∈ es := by
  obtain ⟨e, he, rfl⟩ := Option.map_eq_some_iff.1 hp
  have hid := List.find?_some he
  rw [← of_decide_eq_true hid]
  exact List.mem_reverse.1 (List.mem_of_find?_eq_some he)

/-- The last edge of a child counts, and the pointer from before if there is none. -/
theorem parent?_addEdges (h : Hierarchy) (es : List (ObjectId × ObjectId)) (id : ObjectId) :
    (h.addEdges es).parent? id = (lastParent? es id).or (h.parent? id) := by
  induction es generalizing h with
  | nil => rfl
  | cons e es ih =>
    rw [addEdges_cons, ih, parent?_addEdge, lastParent?_cons, Option.or_assoc]
    congr 1
    split <;> rfl

theorem parent?_empty_addEdges (es : List (ObjectId × ObjectId)) (id : ObjectId) :
    (empty.addEdges es).parent? id = lastParent? es id := by
  rw [parent?_addEdges]
  exact Option.or_none

/-! ## Walks -/

/-- The walk from `id` to the top: along the pointers, past no id twice, to all that they lead to. -/
structure WalksUp (h : Hierarchy) (id : ObjectId) (walk : List ObjectId) : Prop where
  steps : List.IsChain h.Under (id :: walk)
  nodup : walk.Nodup
  mem_iff : ∀ a, a ∈ walk ↔ h.Below id a

theorem isChain_ancestorsFrom (h : Hierarchy) (seen : List ObjectId) (id : ObjectId) :
    List.IsChain h.Under (id :: h.ancestorsFrom seen id) := by
  induction seen, id using ancestorsFrom.induct h with
  | case1 seen id hp =>
    rw [ancestorsFrom_of_none hp]
    exact .singleton id
  | case2 seen id p hp hseen =>
    rw [ancestorsFrom_of_some hp, if_pos hseen]
    exact .singleton id
  | case3 seen id p hp hseen ih =>
    rw [ancestorsFrom_of_some hp, if_neg hseen]
    exact .cons_cons hp ih

/-- A walk passes nothing that was seen before it, and nothing twice. -/
theorem nodup_append_ancestorsFrom {seen : List ObjectId} (hseen : seen.Nodup) (id : ObjectId) :
    (seen ++ h.ancestorsFrom seen id).Nodup := by
  induction seen, id using ancestorsFrom.induct h with
  | case1 seen id hp => rwa [ancestorsFrom_of_none hp, List.append_nil]
  | case2 seen id p hp hrepeat =>
    rwa [ancestorsFrom_of_some hp, if_pos hrepeat, List.append_nil]
  | case3 seen id p hp hnew ih =>
    rw [ancestorsFrom_of_some hp, if_neg hnew, List.nodup_middle]
    exact ih (List.nodup_cons.2 ⟨hnew, hseen⟩)

theorem walksUp_ancestors (h : Hierarchy) (id : ObjectId) : h.WalksUp id (h.ancestors id) where
  steps := h.isChain_ancestorsFrom [] id
  nodup := nodup_append_ancestorsFrom List.nodup_nil id
  mem_iff := fun _ => mem_ancestors_iff

/-- Of two ways along the pointers, the shorter one begins the other. -/
theorem prefix_or_prefix_of_isChain {walk walk' : List ObjectId}
    (hwalk : List.IsChain h.Under (id :: walk)) (hwalk' : List.IsChain h.Under (id :: walk')) :
    walk <+: walk' ∨ walk' <+: walk := by
  induction walk generalizing id walk' with
  | nil => exact Or.inl List.nil_prefix
  | cons p walk ih =>
    cases walk' with
    | nil => exact Or.inr List.nil_prefix
    | cons q walk' =>
      rw [List.isChain_cons_cons] at hwalk hwalk'
      obtain rfl : p = q := Option.some.inj (hwalk.1.symm.trans hwalk'.1)
      rw [List.prefix_cons_inj, List.prefix_cons_inj]
      exact ih hwalk.2 hwalk'.2

theorem WalksUp.eq {walk walk' : List ObjectId} (hw : h.WalksUp id walk)
    (hw' : h.WalksUp id walk') : walk = walk' := by
  have hperm : walk.Perm walk' := (List.perm_ext_iff_of_nodup hw.nodup hw'.nodup).2 fun a =>
    (hw.mem_iff a).trans (hw'.mem_iff a).symm
  rcases prefix_or_prefix_of_isChain hw.steps hw'.steps with hbegin | hbegin
  · exact hbegin.eq_of_length hperm.length_eq
  · exact (hbegin.eq_of_length hperm.length_eq.symm).symm

theorem walksUp_iff {walk : List ObjectId} : h.WalksUp id walk ↔ walk = h.ancestors id := by
  constructor
  · intro hw
    exact hw.eq (h.walksUp_ancestors id)
  · rintro rfl
    exact h.walksUp_ancestors id

/-- A walk is no longer than the edges are many. -/
theorem length_ancestors_le (es : List (ObjectId × ObjectId)) (id : ObjectId) :
    ((empty.addEdges es).ancestors id).length ≤ es.length := by
  have hsub : (empty.addEdges es).ancestors id ⊆ es.map Prod.snd := by
    intro a ha
    obtain ⟨b, -, hb⟩ := Relation.TransGen.tail'_iff.1 (mem_ancestors_iff.1 ha)
    unfold Under at hb
    rw [parent?_empty_addEdges] at hb
    exact List.mem_map.2 ⟨(b, a), mem_of_lastParent? hb, rfl⟩
  have hnodup := (walksUp_ancestors (empty.addEdges es) id).nodup
  simpa using hnodup.length_le_of_subset hsub

/-- Behind any sequence of edges, cycles and children that moved among them, each id points to the
parent in its last edge. The children of an id are those that point to it, in ascending order. The
ancestors are the walk to the top, which ends, and descendants are those with this ancestor. -/
theorem walks_follow_pointers (es : List (ObjectId × ObjectId)) :
    (∀ id, (empty.addEdges es).parent? id = lastParent? es id) ∧
      (∀ p, Ascending ((empty.addEdges es).children p) ∧
        ∀ c, c ∈ (empty.addEdges es).children p ↔ (empty.addEdges es).parent? c = some p) ∧
      (∀ id walk, (empty.addEdges es).WalksUp id walk ↔
        walk = (empty.addEdges es).ancestors id) ∧
      (∀ id, ((empty.addEdges es).ancestors id).length ≤ es.length) ∧
      ∀ id a, (empty.addEdges es).isDescendant id a = true ↔
        a ∈ (empty.addEdges es).ancestors id := by
  have hcoherent : (empty.addEdges es).Coherent := Coherent.empty.addEdges es
  refine ⟨parent?_empty_addEdges es, ?_, fun _ _ => walksUp_iff, length_ancestors_le es, ?_⟩
  · intro p
    exact ⟨hcoherent.ascending p, hcoherent.mem_iff p⟩
  · intro id a
    exact isDescendant_iff.trans mem_ancestors_iff.symm

def brass : ObjectId := ⟨"brass", by decide⟩

def horns : ObjectId := ⟨"horns", by decide⟩

def tubas : ObjectId := ⟨"tubas", by decide⟩

/-- The tubas leave the brass for the horns, from which a cycle goes on. -/
example :
    let h := empty.addEdges [(tubas, brass), (horns, brass), (tubas, horns), (brass, horns)]
    h.children horns = [brass, tubas] ∧ h.children brass = [horns] ∧
      h.ancestors tubas = [horns, brass] ∧ h.ancestors brass = [horns, brass] := by
  decide +kernel

/-! ## New pointers -/

theorem Below.mono (hsub : ∀ id p, h.parent? id = some p → h'.parent? id = some p)
    (hbelow : h.Below id a) : h'.Below id a :=
  Relation.TransGen.mono hsub _ _ hbelow

theorem under_addEdge_iff (hne : id ≠ child) :
    (h.addEdge child parent).Under id a ↔ h.Under id a := by
  unfold Under
  rw [parent?_addEdge, if_neg (Ne.symm hne)]

/-- A way up either was there before, or it passes the child of the new edge. -/
theorem below_addEdge (hbelow : (h.addEdge child parent).Below id a) :
    h.Below id a ∨ Relation.ReflTransGen (h.addEdge child parent).Under id child ∧
      (h.addEdge child parent).Below child a := by
  induction hbelow with
  | single hedge =>
    by_cases hchild : id = child
    · subst hchild
      exact Or.inr ⟨.refl, .single hedge⟩
    · exact Or.inl (.single ((under_addEdge_iff hchild).1 hedge))
  | @tail b c hbelow hedge ih =>
    rcases ih with hbefore | ⟨hup, hrest⟩
    · by_cases hchild : b = child
      · subst hchild
        exact Or.inr ⟨hbelow.to_reflTransGen, .single hedge⟩
      · exact Or.inl (.tail hbefore ((under_addEdge_iff hchild).1 hedge))
    · exact Or.inr ⟨hup, .tail hrest hedge⟩

/-- A cycle that the edge of a child closes passes an older pointer to the child. -/
theorem exists_parent?_of_cycle (hne : parent ≠ child)
    (hcycle : (h.addEdge child parent).Below child child) :
    ∃ a, (h.addEdge child parent).Below child a ∧ h.parent? a = some child := by
  obtain ⟨a, hup, hedge⟩ := Relation.TransGen.tail'_iff.1 hcycle
  have hother : a ≠ child := by
    rintro rfl
    unfold Under at hedge
    rw [parent?_addEdge, if_pos rfl] at hedge
    exact hne (Option.some.inj hedge)
  refine ⟨a, (Relation.reflTransGen_iff_eq_or_transGen.1 hup).resolve_left hother, ?_⟩
  exact (under_addEdge_iff hother).1 hedge

/-- What is below the child of a new edge was below it before. -/
theorem Below.of_addEdge (hbelow : (h.addEdge child parent).Below id child) :
    id = child ∨ h.Below id child := by
  induction hbelow using Relation.TransGen.head_induction_on with
  | single hedge =>
    exact or_iff_not_imp_left.2 fun hne => .single ((under_addEdge_iff hne).1 hedge)
  | head hedge _ ih =>
    refine or_iff_not_imp_left.2 fun hne => ?_
    have hbefore := (under_addEdge_iff hne).1 hedge
    rcases ih with rfl | hrest
    · exact .single hbefore
    · exact .head hbefore hrest

/-- A child that is on no cycle keeps what is below it when it moves. -/
theorem Below.addEdge (hchild : ¬ h.Below child child) (hbelow : h.Below id child) :
    (h.addEdge child parent).Below id child := by
  induction hbelow using Relation.TransGen.head_induction_on with
  | single hedge =>
    refine .single ((under_addEdge_iff ?_).2 hedge)
    rintro rfl
    exact hchild (.single hedge)
  | head hedge hrest ih =>
    refine .head ((under_addEdge_iff ?_).2 hedge) ih
    rintro rfl
    exact hchild (.head hedge hrest)

/-! ## Cycles -/

/-- No pointers lead back to where they began. -/
def Acyclic (h : Hierarchy) : Prop := ∀ id, ¬ h.Below id id

theorem isDescendant_eq_false_iff : h.isDescendant id a = false ↔ ¬ h.Below id a := by
  rw [← isDescendant_iff, Bool.not_eq_true]

theorem acyclic_iff : h.Acyclic ↔ ∀ id, h.isDescendant id id = false :=
  forall_congr' fun _ => isDescendant_eq_false_iff.symm

theorem acyclic_empty : empty.Acyclic := fun _ => not_below_of_parent? rfl

/-- An edge closes a cycle if its parent is the child, or below it. -/
theorem acyclic_addEdge_iff (hacyclic : h.Acyclic) :
    (h.addEdge child parent).Acyclic ↔ parent ≠ child ∧ ¬ h.Below parent child := by
  have hnew : (h.addEdge child parent).parent? child = some parent := by
    rw [parent?_addEdge, if_pos rfl]
  constructor
  · intro hacyclic'
    constructor
    · rintro rfl
      exact hacyclic' parent (.of_parent? hnew)
    · intro hbelow
      have hback : (h.addEdge child parent).Below parent child := hbelow.addEdge (hacyclic child)
      exact hacyclic' child ((below_iff_of_parent? hnew).2 (Or.inr hback))
  · rintro ⟨hne, hout⟩ id hcycle
    -- a cycle that is new passes the child, whose only pointer is the new one
    have hchild : (h.addEdge child parent).Below child child := by
      rcases below_addEdge hcycle with hbefore | ⟨hup, hdown⟩
      · exact absurd hbefore (hacyclic id)
      · exact hdown.trans_left hup
    rcases (below_iff_of_parent? hnew).1 hchild with heq | hback
    · exact hne heq.symm
    · rcases hback.of_addEdge with heq | hbefore
      · exact hne heq
      · exact hout hbefore

/-- Each edge leads to a parent that is neither its child nor, before the edge, below it. -/
def LeadOut (h : Hierarchy) : List (ObjectId × ObjectId) → Prop
  | [] => True
  | e :: es => e.2 ≠ e.1 ∧ h.isDescendant e.2 e.1 = false ∧ (h.addEdge e.1 e.2).LeadOut es

theorem acyclic_addEdges_iff (hacyclic : h.Acyclic) (es : List (ObjectId × ObjectId)) :
    (∀ done, done <+: es → (h.addEdges done).Acyclic) ↔ h.LeadOut es := by
  induction es generalizing h with
  | nil =>
    refine iff_of_true ?_ trivial
    intro done hdone
    rw [List.prefix_nil.1 hdone]
    exact hacyclic
  | cons e es ih =>
    constructor
    · intro hall
      have hstep : (h.addEdge e.1 e.2).Acyclic := hall [e] ⟨es, rfl⟩
      obtain ⟨hne, hout⟩ := (acyclic_addEdge_iff hacyclic).1 hstep
      refine ⟨hne, isDescendant_eq_false_iff.2 hout, (ih hstep).1 fun done hdone => ?_⟩
      exact hall (e :: done) ((List.prefix_cons_inj e).2 hdone)
    · rintro ⟨hne, hout, hrest⟩ done hdone
      have hstep : (h.addEdge e.1 e.2).Acyclic :=
        (acyclic_addEdge_iff hacyclic).2 ⟨hne, isDescendant_eq_false_iff.1 hout⟩
      rcases List.prefix_cons_iff.1 hdone with rfl | ⟨rest, rfl, hprefix⟩
      · exact hacyclic
      · exact (ih hstep).2 hrest rest hprefix

/-- An id is its own descendant exactly if it is on a cycle. None ever is, while edges are put in
one after the other, exactly if each of them leads out of what is below its child. -/
theorem strict_iff_leadOut (es : List (ObjectId × ObjectId)) :
    (∀ id, (empty.addEdges es).isDescendant id id = false ↔ ¬ (empty.addEdges es).Below id id) ∧
      ((∀ done, done <+: es → ∀ id, (empty.addEdges done).isDescendant id id = false) ↔
        empty.LeadOut es) := by
  refine ⟨fun _ => isDescendant_eq_false_iff, ?_⟩
  rw [← acyclic_addEdges_iff acyclic_empty]
  exact forall₂_congr fun _ _ => acyclic_iff.symm

/-- The tubas leave the horns before the horns come below them. -/
def seating : List (ObjectId × ObjectId) :=
  [(tubas, horns), (horns, brass), (tubas, brass), (horns, tubas)]

theorem strict_iff_leadOut_seating :
    empty.LeadOut seating ∧ [(tubas, horns), (horns, brass)] <+: seating ∧
      (empty.addEdges [(tubas, horns), (horns, brass)]).isDescendant tubas tubas = false ∧
      (empty.addEdges seating).ancestors horns = [tubas, brass] := by
  have hout : empty.LeadOut seating := by
    refine ⟨?_, ?_, ?_, ?_, ?_, ?_, ?_, ?_, trivial⟩ <;> decide +kernel
  have hbegin : [(tubas, horns), (horns, brass)] <+: seating :=
    ⟨[(tubas, brass), (horns, tubas)], rfl⟩
  exact ⟨hout, hbegin, (strict_iff_leadOut seating).2.2 hout _ hbegin tubas, by decide +kernel⟩

/-- Two ids that are put below each other are their own descendants. -/
theorem descendant_of_itself :
    (empty.addEdges [(horns, brass), (brass, horns)]).isDescendant horns horns = true ∧
      ¬ ∀ es id, (empty.addEdges es).isDescendant id id = false := by
  have hcycle : (empty.addEdges [(horns, brass), (brass, horns)]).isDescendant horns horns =
      true := by decide +kernel
  refine ⟨hcycle, fun hstrict => ?_⟩
  rw [hstrict] at hcycle
  cases hcycle

end Hierarchy

end AudioProject
