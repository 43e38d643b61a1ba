import AudioProject.Proofs.EventGraph.Ids

/-
  A copy of a template, with its overrides, is the template under other ids. Of ids that are new
  (`NewFor`) each node gets another one, so the renaming is a bijection from the nodes of the
  template to those of the copy (`respells_copy`); edges follow it, those that leave the
  template still leave the copy, and all else of a node stays but for what is overridden:
  `Respells.copiesUnder`.
-/

namespace AudioProject

/-! ## Edges of an object -/

namespace Object

variable {o : Object} {label : String} {id : ObjectId}

theorem mem_destinations :
    id ∈ o.destinations ↔ ∃ label ids, o.edges.get? label = some ids ∧ id ∈ ids := by
  unfold destinations outgoing
  simp only [List.mem_map, List.mem_flatMap, Prod.exists, OrderedMap.get?_eq_some_iff]
  constructor
  · rintro ⟨_, _, ⟨label, ids, hpair, id', hid', heq⟩, rfl⟩
    obtain ⟨rfl, rfl⟩ := Prod.mk.inj heq
    exact ⟨_, ids, hpair, hid'⟩
  · rintro ⟨label, ids, hpair, hid⟩
    exact ⟨label, id, ⟨label, ids, hpair, id, hid, rfl⟩, rfl⟩

theorem mem_destinations_of_edge (h : id ∈ o.edge label) : id ∈ o.destinations := by
  unfold edge at h
  cases hget : o.edges.get? label with
  | none =>
    rw [hget] at h
    cases h
  | some ids =>
    rw [hget] at h
    exact mem_destinations.2 ⟨label, ids, hget, h⟩

theorem get?_setEdge (o : Object) (label label' : String) (ids : List ObjectId) :
    (o.setEdge label ids).edges.get? label' =
      if label = label' then some ids else o.edges.get? label' :=
  OrderedMap.get?_insert _ _ _ _

theorem get?_pushEdge (o : Object) (label label' : String) (id : ObjectId) :
    (o.pushEdge label id).edges.get? label' =
      if label = label' then some (o.edge label ++ [id]) else o.edges.get? label' :=
  get?_setEdge _ _ _ _

/-- One more destination takes none away. -/
theorem destinations_pushEdge {d : ObjectId} (h : d ∈ o.destinations) :
    d ∈ (o.pushEdge label id).destinations := by
  obtain ⟨label', ids, hget, hd⟩ := mem_destinations.1 h
  by_cases hlabel : label = label'
  · subst hlabel
    refine mem_destinations.2 ⟨label, _, (get?_pushEdge _ _ _ _).trans (if_pos rfl), ?_⟩
    rw [edge, hget]
    exact List.mem_append_left _ hd
  · exact mem_destinations.2 ⟨label', ids,
      (get?_pushEdge _ _ _ _).trans ((if_neg hlabel).trans hget), hd⟩

end Object

namespace EventGraph

variable {g : EventGraph} {root id : ObjectId} {o : Object} {ids ids' : IdSupply} {r : Renaming}
  {v : Overrides}

/-! ## Nodes in a row -/

theorem contains_iff (g : EventGraph) (id : ObjectId) :
    g.contains id = true ↔ id ∈ g.nodes.keys := g.nodes.contains_iff id

theorem contains_eq_false (g : EventGraph) (id : ObjectId) :
    g.contains id = false ↔ id ∉ g.nodes.keys := by
  rw [← contains_iff, Bool.not_eq_true]

theorem IsKeyed.get?_eq_some_iff (h : g.IsKeyed) :
    g.get? id = some o ↔ o ∈ g.nodes.values ∧ o.id = id := by
  constructor
  · intro hget
    exact ⟨List.mem_map.2 ⟨(id, o), (g.nodes.get?_eq_some_iff id o).1 hget, rfl⟩, h id o hget⟩
  · rintro ⟨hmem, rfl⟩
    obtain ⟨⟨id, o⟩, hpair, rfl⟩ := List.mem_map.1 hmem
    have hget : g.get? id = some o := (g.nodes.get?_eq_some_iff id o).2 hpair
    rwa [h id o hget]

theorem IsKeyed.keys (h : g.IsKeyed) : g.nodes.keys = g.nodes.values.map Object.id := by
  unfold OrderedMap.keys OrderedMap.values
  rw [List.map_map]
  exact List.map_congr_left fun p hp => (h p.1 p.2 ((g.nodes.get?_eq_some_iff p.1 p.2).2 hp)).symm

/-- Objects with distinct ids are the nodes that they define, in their order. -/
theorem values_definitions {os : List Object} (h : (os.map Object.id).Nodup) :
    (definitions os).values = os := by
  unfold definitions OrderedMap.values
  rw [OrderedMap.toList_ofList (by rwa [List.map_map]), List.map_map]
  exact List.map_id os

/-- A change to one node leaves the others where they are. -/
theorem IsKeyed.values_update (h : g.IsKeyed) (id : ObjectId) (f : Object → Object) :
    (g.update id f).nodes.values = g.nodes.values.map fun o => if o.id = id then f o else o := by
  unfold update
  split
  · next o ho =>
    unfold OrderedMap.values
    rw [OrderedMap.toList_insert_of_get? ho, List.map_map, List.map_map]
    refine List.map_congr_left fun p hp => ?_
    have hget : g.get? p.1 = some p.2 := (g.nodes.get?_eq_some_iff p.1 p.2).2 hp
    have hid := h p.1 p.2 hget
    dsimp only [Function.comp]
    by_cases hp : p.1 = id
    · have hsame : p.2 = o := Option.some.inj (hget.symm.trans (hp ▸ ho))
      rw [if_pos hp, if_pos (hid.trans hp), hsame]
    · rw [if_neg hp, if_neg (hid ▸ hp)]
  · next hnone =>
    refine ((List.map_congr_left fun o ho => if_neg fun hid => ?_).trans (List.map_id _)).symm
    have hget : g.nodes.get? id = some o := h.get?_eq_some_iff.2 ⟨ho, hid⟩
    rw [hnone] at hget
    cases hget

theorem isKeyed_iff_idsIn : g.IsKeyed ↔ g.IdsIn g.nodes.keys :=
  ⟨fun h id o ho => ⟨h id o ho, (g.nodes.mem_keys_iff id).2 ⟨o, ho⟩⟩, IdsIn.keyed⟩

theorem IsKeyed.update (h : g.IsKeyed) (id : ObjectId) {f : Object → Object}
    (hid : ∀ o, (f o).id = o.id) : (g.update id f).IsKeyed :=
  ((isKeyed_iff_idsIn.1 h).update id hid).keyed

theorem isKeyed_rename (g : EventGraph) (r : Renaming) (root : ObjectId) :
    (g.rename r root).IsKeyed := fun _ _ ho => (mem_of_definitions ho).2

/-! ## Renamings -/

/-- Ids that are put into a renaming are mapped to the new root, if one of them is the old root, and
to minted ids, each to another one. -/
theorem pairs_renamingFor (oldRoot root : ObjectId) (ids : IdSupply) (r : Renaming)
    (olds : List ObjectId) (h : (r.keys ++ olds).Nodup) :
    (renamingFor oldRoot root ids r olds).1.keys = r.keys ++ olds ∧
      (renamingFor oldRoot root ids r olds).1.values.Perm
        (r.values ++ ((if oldRoot ∈ olds then [root] else []) ++
          ids.minted (renamingFor oldRoot root ids r olds).2)) := by
  induction olds generalizing r ids with
  | nil => simp [renamingFor, IdSupply.minted_self]
  | cons first olds ih =>
    have hnew : first ∉ r.keys := fun hmem =>
      (List.nodup_append.1 h).2.2 first hmem first List.mem_cons_self rfl
    have hkeys : ∀ new, (r.insert first new).keys ++ olds = r.keys ++ first :: olds := by
      intro new
      rw [OrderedMap.keys_insert, if_neg hnew, List.append_assoc, List.singleton_append]
    have hvalues : ∀ new, (r.insert first new).values = r.values ++ [new] := by
      intro new
      unfold OrderedMap.values
      rw [OrderedMap.toList_insert_of_not_mem r hnew, List.map_append]
      rfl
    rw [renamingFor]
    by_cases hroot : first = oldRoot
    · subst hroot
      have hlater : first ∉ olds :=
        (List.nodup_cons.1 (List.nodup_append.1 h).2.1).1
      obtain ⟨ihkeys, ihvalues⟩ := ih ids (r.insert first root) (by rwa [hkeys])
      rw [if_pos rfl, ihkeys, hkeys]
      refine ⟨rfl, ihvalues.trans ?_⟩
      rw [hvalues, if_neg hlater, if_pos List.mem_cons_self, List.append_assoc, List.nil_append]
    · obtain ⟨ihkeys, ihvalues⟩ := ih ids.mint.2 (r.insert first ids.mint.1) (by rwa [hkeys])
      have hmem : (oldRoot ∈ first :: olds) = (oldRoot ∈ olds) := by
        simp [Ne.symm hroot]
      rw [if_neg hroot]
      dsimp only
      rw [ihkeys, hkeys]
      refine ⟨rfl, ihvalues.trans ?_⟩
      rw [hvalues, IdSupply.minted_append (.mint ids) (precedes_renamingFor _ _ _ _ _),
        IdSupply.minted_mint, List.append_assoc]
      simp only [hmem]
      exact List.Perm.append_left _ (List.perm_append_comm_assoc _ _ _)

/-- The ids that a copy gets: that of its root, and those that are minted. -/
def copyIds (g : EventGraph) (root : ObjectId) (ids : IdSupply) : List ObjectId :=
  root :: ids.minted (g.copy root ids).2.2

/-- Ids that are new to a template: none is an id or a destination in it, nor another one of
them. -/
structure NewFor (g : EventGraph) (news : List ObjectId) : Prop where
  once : news.Nodup
  nodes : ∀ id ∈ news, g.contains id = false
  destinations : ∀ id ∈ news, ∀ o ∈ g.nodes.values, id ∉ o.destinations

/-- A renaming of the nodes of a template, which gives each of them another id, of `news`. -/
structure Respells (g : EventGraph) (root : ObjectId) (news : List ObjectId) (r : Renaming) :
    Prop where
  keys : r.keys = g.nodes.keys
  distinct : r.values.Nodup
  values : ∀ id ∈ r.values, id ∈ news
  root : r.apply g.root = root

theorem isFresh_of_not_mem (hids : ids.Precedes ids') (h : id ∉ ids.minted ids') :
    IsFresh id ids ids' := by
  intro n hle hlt hn
  rw [hids.nth] at hn
  exact h (IdSupply.mem_minted.2 ⟨n, hle, hlt, hn⟩)

theorem respells_copy (hroot : g.contains g.root = true) (hnew : (g.copyIds root ids).Nodup) :
    g.Respells root (g.copyIds root ids) (g.copy root ids).2.1 := by
  have hmem : g.root ∈ g.nodes.keys := (g.contains_iff g.root).1 hroot
  obtain ⟨hkeys, hvalues⟩ := pairs_renamingFor g.root root ids ∅ g.nodes.keys g.nodes.nodup
  have hperm : (g.copy root ids).2.1.values.Perm (g.copyIds root ids) := by
    rw [if_pos hmem] at hvalues
    exact hvalues
  have hfresh := isFresh_of_not_mem (precedes_copy g root ids) (List.nodup_cons.1 hnew).1
  obtain ⟨hrenames, hknown⟩ := renames_copy hfresh (.refl _)
  obtain ⟨new, hget⟩ := hknown g.root hmem
  refine ⟨hkeys, hperm.nodup_iff.2 hnew, fun id hid => hperm.mem_iff.1 hid, ?_⟩
  rw [Renaming.apply, hget, Option.getD_some, hrenames.root new hget]

namespace Respells

variable {news : List ObjectId}

theorem get? (h : g.Respells root news r) (hid : g.contains id = true) :
    r.get? id = some (r.apply id) := by
  obtain ⟨new, hnew⟩ := (r.mem_keys_iff id).1 (h.keys ▸ (g.contains_iff id).1 hid)
  rw [Renaming.apply, hnew, Option.getD_some]

theorem mem (h : g.Respells root news r) (hid : g.contains id = true) : r.apply id ∈ news :=
  h.values _ (List.mem_map.2 ⟨(id, r.apply id), (r.get?_eq_some_iff _ _).1 (h.get? hid), rfl⟩)

theorem injective (h : g.Respells root news r) {a b : ObjectId} (ha : g.contains a = true)
    (hb : g.contains b = true) (hab : r.apply a = r.apply b) : a = b :=
  OrderedMap.eq_of_get?_of_nodup_values h.distinct (h.get? ha) (hab ▸ h.get? hb)

theorem outside (h : g.Respells root news r) (hid : g.contains id = false) : r.apply id = id := by
  rw [g.contains_eq_false, ← h.keys] at hid
  rw [Renaming.apply, r.get?_eq_none_of_not_mem hid, Option.getD_none]

/-- The nodes of a copy are those of the template, in their order. -/
theorem values_rename (h : g.Respells root news r) (hkeyed : g.IsKeyed) :
    (g.rename r root).nodes.values = g.nodes.values.map (renameNode r) := by
  refine values_definitions ?_
  rw [List.map_map]
  have hcontains : ∀ o ∈ g.nodes.values, g.contains o.id = true := fun o ho =>
    OrderedMap.contains_of_get? (hkeyed.get?_eq_some_iff.2 ⟨ho, rfl⟩)
  have hids : (g.nodes.values.map Object.id).Nodup := hkeyed.keys ▸ g.nodes.nodup
  refine List.Nodup.map_on (fun o ho q hq hoq => ?_) (List.Nodup.of_map _ hids)
  exact List.inj_on_of_nodup_map hids ho hq (h.injective (hcontains o ho) (hcontains q hq) hoq)

end Respells

/-! ## Overrides -/

/-- A node with what is overridden in it. -/
def overrideNode (v : Overrides) (root : ObjectId) (o : Object) : Object :=
  overrideOutput v (if o.id = root then overrideRoot v o else o)

theorem IsKeyed.values_override (h : g.IsKeyed) (v : Overrides) :
    (g.override v).1.nodes.values = g.nodes.values.map (overrideNode v g.root) := by
  have hvalues : (g.override v).1.nodes.values =
      (g.update g.root (overrideRoot v)).nodes.values.map (overrideOutput v) := by
    unfold override OrderedMap.mapValues OrderedMap.values
    rw [List.map_map, List.map_map]
    rfl
  rw [hvalues, h.values_update, List.map_map]
  rfl

theorem IsKeyed.override (h : g.IsKeyed) (v : Overrides) : (g.override v).1.IsKeyed :=
  ((isKeyed_iff_idsIn.1 h).override v).keyed

theorem root_override (g : EventGraph) (v : Overrides) : (g.override v).1.root = g.root :=
  root_update g g.root (overrideRoot v)

theorem model_override (g : EventGraph) (v : Overrides) : (g.override v).1.model = g.model := by
  show (g.update g.root (overrideRoot v)).model = g.model
  unfold update
  split <;> rfl

theorem id_overrideOutput (v : Overrides) (o : Object) : (overrideOutput v o).id = o.id := by
  unfold overrideOutput
  split <;> rfl

theorem id_overrideNode (v : Overrides) (root : ObjectId) (o : Object) :
    (overrideNode v root o).id = o.id := by
  unfold overrideNode
  rw [id_overrideOutput]
  split <;> rfl

theorem objectClass_overrideNode (v : Overrides) (root : ObjectId) (o : Object) :
    (overrideNode v root o).objectClass = o.objectClass := by
  unfold overrideNode overrideOutput
  split <;> split <;> rfl

/-- The destinations that an override gives an edge of a node, if there is one for it. -/
def overriddenEdge? (v : Overrides) (root : ObjectId) (o : Object) (label : String) :
    Option (List ObjectId) :=
  if o.objectClass = .mixerInput ∧ label = "output" then some [v.bus]
  else if o.id = root ∧ label = "banks" then some [v.bank]
  else if o.id = root ∧ label = "folder" then some [v.folder]
  else none

theorem edges_overrideNode (v : Overrides) (root : ObjectId) (o : Object) (label : String) :
    (overrideNode v root o).edges.get? label =
      (overriddenEdge? v root o label).or (o.edges.get? label) := by
  have hroot : (if o.id = root then overrideRoot v o else o).edges.get? label =
      (if o.id = root ∧ label = "banks" then some [v.bank]
        else if o.id = root ∧ label = "folder" then some [v.folder]
        else o.edges.get? label) := by
    by_cases hid : o.id = root
    · rw [if_pos hid]
      show ((o.edges.insert "folder" [v.folder]).insert "banks" [v.bank]).get? label = _
      simp only [OrderedMap.get?_insert, hid, true_and, eq_comm (b := label)]
    · simp only [hid, false_and, if_false]
  have hclass : (if o.id = root then overrideRoot v o else o).objectClass = o.objectClass := by
    split <;> rfl
  unfold overrideNode overrideOutput overriddenEdge?
  rw [hclass]
  by_cases hinput : o.objectClass = .mixerInput
  · rw [if_pos hinput]
    show ((if o.id = root then overrideRoot v o else o).edges.insert "output" [v.bus]).get? label =
      _
    rw [OrderedMap.get?_insert, hroot]
    by_cases hlabel : label = "output"
    · subst hlabel
      simp [hinput]
    · simp only [hinput, hlabel, Ne.symm hlabel, and_false, if_false]
      split_ifs <;> rfl
  · rw [if_neg hinput, hroot]
    simp only [hinput, false_and, if_false]
    split_ifs <;> rfl

theorem property?_overrideNode (v : Overrides) (root : ObjectId) (o : Object) (name : String) :
    (overrideNode v root o).property? name =
      if o.id = root ∧ name = "name" then some v.name else o.property? name := by
  have hproperties : (overrideNode v root o).properties =
      if o.id = root then o.properties.insert "name" v.name else o.properties := by
    unfold overrideNode overrideOutput
    split <;> split <;> rfl
  unfold Object.property?
  rw [hproperties]
  by_cases hid : o.id = root
  · rw [if_pos hid, OrderedMap.get?_insert]
    simp only [hid, true_and, eq_comm (b := name)]
  · simp only [hid, false_and, if_false]

/-- What is overridden stands where it stood, or comes last. -/
theorem prefix_overrideNode (v : Overrides) (root : ObjectId) (o : Object) :
    o.properties.keys <+: (overrideNode v root o).properties.keys ∧
      o.edges.keys <+: (overrideNode v root o).edges.keys := by
  have hroot : o.properties.keys <+:
        (if o.id = root then overrideRoot v o else o).properties.keys ∧
      o.edges.keys <+: (if o.id = root then overrideRoot v o else o).edges.keys := by
    split
    · exact ⟨OrderedMap.keys_prefix_insert _ _ _, (OrderedMap.keys_prefix_insert _ _ _).trans
        (OrderedMap.keys_prefix_insert _ _ _)⟩
    · exact ⟨List.prefix_rfl, List.prefix_rfl⟩
  unfold overrideNode overrideOutput
  generalize (if o.id = root then overrideRoot v o else o) = q at hroot
  split
  · exact ⟨hroot.1, hroot.2.trans (OrderedMap.keys_prefix_insert _ _ _)⟩
  · exact hroot

/-! ## The copy -/

/-- A node of a template and its copy, with `φ` for the new ids. But for what is overridden they are
alike, and what the node has stands in the same order. -/
structure CopiedNode (φ : ObjectId → ObjectId) (v : Overrides) (root : ObjectId) (o o' : Object) :
    Prop where
  id : o'.id = φ o.id
  objectClass : o'.objectClass = o.objectClass
  property : ∀ name, o'.property? name =
    if o.id = root ∧ name = "name" then some v.name else o.property? name
  properties : o.properties.keys <+: o'.properties.keys
  edge : ∀ label, o'.edges.get? label =
    (overriddenEdge? v root o label).or ((o.edges.get? label).map (List.map φ))
  edges : o.edges.keys <+: o'.edges.keys

/-- The event `c` is the template `g` with `φ` for the new ids, but for what is overridden. -/
structure CopiesUnder (φ : ObjectId → ObjectId) (v : Overrides) (g c : EventGraph) : Prop where
  root : c.root = φ g.root
  model : c.model = g.model
  injective : ∀ a b, g.contains a = true → g.contains b = true → φ a = φ b → a = b
  /-- No node keeps its id. -/
  apart : ∀ id, g.contains id = true → g.contains (φ id) = false
  /-- Ids that are no nodes stay. -/
  outside : ∀ id, g.contains id = false → φ id = id
  /-- The nodes are those of the template, in their order. -/
  order : c.nodes.keys = g.nodes.keys.map φ
  node : ∀ id o, g.get? id = some o → ∃ o', c.get? (φ id) = some o' ∧ CopiedNode φ v g.root o o'
  /-- An edge that leaves the template leaves the copy. -/
  leaving : ∀ o ∈ g.nodes.values, ∀ id ∈ o.destinations, g.contains id = false →
    c.contains id = false

variable {news : List ObjectId}

theorem Respells.values_override (h : g.Respells root news r) (hkeyed : g.IsKeyed)
    (v : Overrides) : ((g.rename r root).override v).1.nodes.values =
      g.nodes.values.map fun o => overrideNode v root (renameNode r o) := by
  rw [(isKeyed_rename g r root).values_override, h.values_rename hkeyed, List.map_map]
  rfl

theorem Respells.keys_override (h : g.Respells root news r) (hkeyed : g.IsKeyed) (v : Overrides) :
    ((g.rename r root).override v).1.nodes.keys = g.nodes.keys.map r.apply := by
  rw [((isKeyed_rename g r root).override v).keys, h.values_override hkeyed, hkeyed.keys,
    List.map_map, List.map_map]
  exact List.map_congr_left fun o _ => id_overrideNode v root (renameNode r o)

/-- Only the old root gets the id of the new one. -/
theorem Respells.apply_eq_root (h : g.Respells root news r) (hroot : g.contains g.root = true)
    (hid : g.contains id = true) : r.apply id = root ↔ id = g.root := by
  constructor
  · intro heq
    exact h.injective hid hroot (heq.trans h.root.symm)
  · rintro rfl
    exact h.root

theorem Respells.copiedNode (h : g.Respells root news r) (hroot : g.contains g.root = true)
    (ho : g.contains o.id = true) (v : Overrides) :
    CopiedNode r.apply v g.root o (overrideNode v root (renameNode r o)) := by
  have hid : (renameNode r o).id = root ↔ o.id = g.root := h.apply_eq_root hroot ho
  refine ⟨id_overrideNode v root _, objectClass_overrideNode v root _, fun name => ?_,
    (prefix_overrideNode v root (renameNode r o)).1, fun label => ?_, ?_⟩
  · rw [property?_overrideNode]
    simp only [hid]
    rfl
  · have hover : overriddenEdge? v root (renameNode r o) label =
        overriddenEdge? v g.root o label := by
      unfold overriddenEdge?
      simp only [hid]
      rfl
    rw [edges_overrideNode, hover]
    exact congrArg _ (OrderedMap.get?_mapValues o.edges _ label)
  · have hkeys : (renameNode r o).edges.keys = o.edges.keys := OrderedMap.keys_mapValues _ _
    exact hkeys ▸ (prefix_overrideNode v root (renameNode r o)).2

/-- A template under new ids, with its overrides, is a copy of it. -/
theorem Respells.copiesUnder (h : g.Respells root news r) (hkeyed : g.IsKeyed)
    (hroot : g.contains g.root = true) (hnew : g.NewFor news) (v : Overrides) :
    CopiesUnder r.apply v g ((g.rename r root).override v).1 where
  root := (root_override _ v).trans h.root.symm
  model := model_override _ v
  injective := fun _ _ => h.injective
  apart := fun _ hid => hnew.nodes _ (h.mem hid)
  outside := fun _ => h.outside
  order := h.keys_override hkeyed v
  node := by
    intro id o ho
    have hcontains : g.contains id = true := OrderedMap.contains_of_get? ho
    obtain ⟨hmem, rfl⟩ := hkeyed.get?_eq_some_iff.1 ho
    refine ⟨_, ((isKeyed_rename g r root).override v).get?_eq_some_iff.2 ⟨?_, ?_⟩,
      h.copiedNode hroot hcontains v⟩
    · rw [h.values_override hkeyed]
      exact List.mem_map_of_mem hmem
    · exact id_overrideNode v root _
  leaving := by
    intro o ho d hd hout
    rw [contains_eq_false, h.keys_override hkeyed]
    intro hmem
    obtain ⟨id, hid, rfl⟩ := List.mem_map.1 hmem
    exact hnew.destinations _ (h.mem ((g.contains_iff id).2 hid)) o ho hd

/-! ## Later ids -/

variable {later : List ObjectId}

theorem NewFor.append_right (h : g.NewFor (news ++ later)) : g.NewFor later :=
  ⟨(List.nodup_append.1 h.once).2.1, fun id hid => h.nodes id (List.mem_append_right _ hid),
    fun id hid => h.destinations id (List.mem_append_right _ hid)⟩

/-- What comes after a copy gets none of its ids. -/
theorem Respells.nodup_keys_override (h : g.Respells root news r) (hkeyed : g.IsKeyed)
    (hnew : (news ++ later).Nodup) (v : Overrides) :
    (((g.rename r root).override v).1.nodes.keys ++ later).Nodup := by
  obtain ⟨-, hlater, hapart⟩ := List.nodup_append.1 hnew
  refine List.nodup_append.2 ⟨((g.rename r root).override v).1.nodes.nodup, hlater, ?_⟩
  intro id hid
  rw [h.keys_override hkeyed] at hid
  obtain ⟨old, hold, rfl⟩ := List.mem_map.1 hid
  exact hapart _ (h.mem ((g.contains_iff old).2 hold))

/-- Edges that are not overridden lead to none of the later ids. -/
theorem Respells.edge_override (h : g.Respells root news r) (hkeyed : g.IsKeyed)
    (honce : (news ++ later).Nodup) (hnew : g.NewFor later) (v : Overrides) {label : String}
    (hlabel : label ∉ ["output", "banks", "folder"])
    (ho : o ∈ ((g.rename r root).override v).1.nodes.values) : ∀ id ∈ o.edge label, id ∉ later := by
  intro id hid hlater
  rw [h.values_override hkeyed] at ho
  obtain ⟨q, hq, rfl⟩ := List.mem_map.1 ho
  have hover : overriddenEdge? v root (renameNode r q) label = none := by
    simp only [List.mem_cons, not_or] at hlabel
    simp [overriddenEdge?, hlabel]
  rw [Object.edge, edges_overrideNode, hover, Option.none_or] at hid
  have hrename : (renameNode r q).edges.get? label = (q.edges.get? label).map (List.map r.apply) :=
    OrderedMap.get?_mapValues _ _ _
  rw [hrename] at hid
  cases hget : q.edges.get? label with
  | none =>
    rw [hget] at hid
    cases hid
  | some olds =>
    rw [hget] at hid
    obtain ⟨old, hold, rfl⟩ := List.mem_map.1 hid
    by_cases hnode : g.contains old = true
    · exact (List.nodup_append.1 honce).2.2 _ (h.mem hnode) _ hlater rfl
    · rw [h.outside (Bool.eq_false_iff.2 hnode)] at hlater
      exact hnew.destinations _ hlater q hq (Object.mem_destinations.2 ⟨label, olds, hget, hold⟩)

/-! ## What an override leaves -/

theorem IsKeyed.get?_override (h : g.IsKeyed) (v : Overrides) :
    (g.override v).1.get? id = some o ↔ ∃ q, g.get? id = some q ∧ overrideNode v g.root q = o := by
  rw [(h.override v).get?_eq_some_iff, h.values_override, List.mem_map]
  simp only [h.get?_eq_some_iff]
  constructor
  · rintro ⟨⟨q, hq, rfl⟩, rfl⟩
    exact ⟨q, ⟨hq, (id_overrideNode _ _ _).symm⟩, rfl⟩
  · rintro ⟨q, ⟨hq, rfl⟩, rfl⟩
    exact ⟨⟨q, hq, rfl⟩, id_overrideNode _ _ _⟩

/-- Mixer inputs lead to the bus, and the root to its folder and bank. -/
theorem IsKeyed.overridden (h : g.IsKeyed) (v : Overrides)
    (ho : (g.override v).1.get? id = some o) :
    (o.objectClass = .mixerInput → o.edges.get? "output" = some [v.bus]) ∧
      (id = g.root →
        o.edges.get? "folder" = some [v.folder] ∧ o.edges.get? "banks" = some [v.bank]) := by
  obtain ⟨q, hq, rfl⟩ := (h.get?_override v).1 ho
  rw [objectClass_overrideNode]
  simp only [edges_overrideNode]
  constructor
  · intro hclass
    simp [overriddenEdge?, hclass]
  · rintro rfl
    simp [overriddenEdge?, (h.get?_eq_some_iff.1 hq).2]

end EventGraph

end AudioProject
