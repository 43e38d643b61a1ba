import AudioProject.EventGraph.Copy
import AudioProject.EventGraph.Graft
import AudioProject.Proofs.EventGraph.Searching

/-
  The root of an event graph stays an event, whatever is done to the graph. A copy gives it the
  new id, and every other node another one, as long as the ids that are minted are new (`IsFresh`);
  overrides and media change nodes, or add some under new ids.
-/

namespace AudioProject

/-! ## Fresh ids -/

/-- A supply of ids before and after some of them were minted. -/
structure IdSupply.Precedes (ids ids' : IdSupply) : Prop where
  nth : ids'.nth = ids.nth
  issued : ids.issued ≤ ids'.issued

namespace IdSupply.Precedes

variable {ids ids' ids'' : IdSupply}

theorem refl (ids : IdSupply) : ids.Precedes ids := ⟨rfl, Nat.le_refl _⟩

theorem trans (h : ids.Precedes ids') (h' : ids'.Precedes ids'') : ids.Precedes ids'' :=
  ⟨h'.nth.trans h.nth, Nat.le_trans h.issued h'.issued⟩

theorem mint (ids : IdSupply) : ids.Precedes ids.mint.2 := ⟨rfl, Nat.le_succ _⟩

end IdSupply.Precedes

/-- None of the ids that are minted from `ids` on, until there is `ids'`, is `id`. -/
def IsFresh (id : ObjectId) (ids ids' : IdSupply) : Prop :=
  ∀ n, ids.issued ≤ n → n < ids'.issued → ids'.nth n ≠ id

theorem IsFresh.of_precedes {id : ObjectId} {ids ids₁ ids' : IdSupply} (h : IsFresh id ids ids')
    (hids : ids.Precedes ids₁) : IsFresh id ids₁ ids' :=
  fun n hn => h n (Nat.le_trans hids.issued hn)

theorem IsFresh.mint {id : ObjectId} {ids ids' : IdSupply} (h : IsFresh id ids ids')
    (hids : ids.mint.2.Precedes ids') : ids.mint.1 ≠ id := by
  have hne := h ids.issued (Nat.le_refl _) hids.issued
  rw [hids.nth] at hne
  exact hne

namespace EventGraph

variable {g : EventGraph} {root id : ObjectId} {o : Object} {ids ids' : IdSupply}

/-- The node of the root is an event. -/
def HasEvent (g : EventGraph) : Prop :=
  ∃ o, g.get? g.root = some o ∧ o.id = g.root ∧ o.objectClass = .event

/-- Every node stands under its own id. -/
def IsKeyed (g : EventGraph) : Prop := ∀ id o, g.get? id = some o → o.id = id

/-- The document of an event begins with the event. -/
theorem objects_eq_cons (h : g.HasEvent) :
    ∃ o rest, g.objects = o :: rest ∧ o.id = g.root ∧ o.objectClass = .event := by
  obtain ⟨o, ho, hid, hclass⟩ := h
  refine ⟨o, (g.nodes.erase g.root).values, ?_, hid, hclass⟩
  unfold objects rootObject?
  rw [ho]
  rfl

/-! ## Reachable nodes -/

theorem get?_reachable (g : EventGraph) (id : ObjectId) :
    g.reachable.get? id = if id ∈ g.reached then g.get? id else none := by
  unfold reachable get?
  rw [OrderedMap.get?_filter]
  by_cases h : id ∈ g.reached
  · cases g.nodes.get? id <;> simp [h]
  · cases g.nodes.get? id <;> simp [h]

theorem get?_prune (g : EventGraph) (id : ObjectId) :
    g.prune.1.get? id = if id ∈ g.reached then g.get? id else none :=
  get?_reachable g id

theorem HasEvent.prune (h : g.HasEvent) : g.prune.1.HasEvent := by
  obtain ⟨o, ho, hevent⟩ := h
  refine ⟨o, ?_, hevent⟩
  rw [get?_prune]
  show (if g.root ∈ g.reached then g.get? g.root else none) = some o
  rw [if_pos (g.mem_reached_iff.2 .refl), ho]

/-! ## Events among objects -/

/-- All objects as nodes, the superfluous ones included. -/
def whole (root : ObjectId) (model : Model) (os : List Object) : EventGraph :=
  ⟨root, model, definitions os⟩

theorem isKeyed_whole (root : ObjectId) (model : Model) (os : List Object) :
    (whole root model os).IsKeyed := fun _ _ ho => (mem_of_definitions ho).2

/-- There is an event exactly if the definition of its id is one, and it is what pruning leaves of
all the objects. -/
theorem extract?_eq_some_iff {model : Model} {os : List Object} :
    extract? root model os = some g ↔
      (∃ o, definition? os root = some o ∧ o.objectClass = .event) ∧
        g = (whole root model os).prune.1 := by
  unfold extract?
  cases ho : definition? os root with
  | none => simp
  | some o =>
    have hid : o.id = root := (mem_of_definitions ((get?_definitions os root).trans ho)).2
    have hwaiting : ∀ q ∈ [o], definition? os q.id = some q := by
      intro q hq
      rw [List.mem_singleton.1 hq, hid, ho]
    have hids : gatherFrom os [root] [o] = (whole root model os).reached := by
      rw [gatherFrom_eq_searchFrom hwaiting, List.map_singleton, hid]
      rfl
    have hleft : definitions (os.filter fun q => q.id ∈ gatherFrom os [root] [o]) =
        (whole root model os).reachable := by
      rw [hids]
      exact definitions_filter os fun id => id ∈ (whole root model os).reached
    by_cases hclass : o.objectClass = .event
    · simp only [hclass, if_pos, hleft, Option.some.injEq, exists_eq_left', true_and]
      exact eq_comm
    · simp [hclass]

/-- A graph is made for events only. -/
theorem hasEvent_extract {model : Model} {os : List Object} (h : extract? root model os = some g) :
    g.HasEvent ∧ g.IsKeyed := by
  obtain ⟨⟨o, ho, hclass⟩, rfl⟩ := extract?_eq_some_iff.1 h
  have hget : (definitions os).get? root = some o := (get?_definitions os root).trans ho
  have hwhole : (whole root model os).HasEvent := ⟨o, hget, (mem_of_definitions hget).2, hclass⟩
  refine ⟨hwhole.prune, fun id q hq => ?_⟩
  rw [get?_prune] at hq
  split at hq
  · exact isKeyed_whole root model os id q hq
  · cases hq

/-! ## Copies -/

/-- What is known of a renaming: the old root gets the new one as its id, and no other node does. -/
structure Renames (oldRoot newRoot : ObjectId) (r : Renaming) : Prop where
  root : ∀ id, r.get? oldRoot = some id → id = newRoot
  others : ∀ old id, old ≠ oldRoot → r.get? old = some id → id ≠ newRoot

theorem precedes_renamingFor (oldRoot root : ObjectId) (ids : IdSupply) (r : Renaming)
    (olds : List ObjectId) : ids.Precedes (renamingFor oldRoot root ids r olds).2 := by
  induction olds generalizing r ids with
  | nil => exact .refl ids
  | cons first olds ih =>
    rw [renamingFor]
    by_cases hroot : first = oldRoot
    · rw [if_pos hroot]
      exact ih ids _
    · rw [if_neg hroot]
      exact (IdSupply.Precedes.mint ids).trans (ih ids.mint.2 _)

/-- One more id is renamed, to the new root exactly if it is the old one. -/
theorem Renames.insert {oldRoot first new : ObjectId} {r : Renaming} (hr : Renames oldRoot root r)
    (hnew : new = root ↔ first = oldRoot) : Renames oldRoot root (r.insert first new) := by
  constructor
  · intro id hid
    rw [OrderedMap.get?_insert] at hid
    split at hid
    · next hfirst =>
      rw [← Option.some.inj hid]
      exact hnew.2 hfirst
    · exact hr.root id hid
  · intro old id hne hid
    rw [OrderedMap.get?_insert] at hid
    split at hid
    · next hfirst =>
      rw [← Option.some.inj hid]
      intro hroot
      exact hne (hfirst.symm.trans (hnew.1 hroot))
    · exact hr.others old id hne hid

theorem known_insert {first old : ObjectId} {olds : List ObjectId} {r : Renaming}
    (hold : old ∈ first :: olds ∨ ∃ id, r.get? old = some id) (new : ObjectId) :
    old ∈ olds ∨ ∃ id, (r.insert first new).get? old = some id := by
  rw [OrderedMap.get?_insert]
  by_cases hfirst : first = old
  · exact Or.inr ⟨new, if_pos hfirst⟩
  rw [if_neg hfirst]
  rcases hold with hold | hold
  · have hrest : old ∈ olds := (List.mem_cons.1 hold).resolve_left (Ne.symm hfirst)
    exact Or.inl hrest
  · exact Or.inr hold

theorem renames_renamingFor {oldRoot : ObjectId} (hfresh : IsFresh root ids ids') {r : Renaming}
    (hr : Renames oldRoot root r) {olds : List ObjectId}
    (hids : (renamingFor oldRoot root ids r olds).2.Precedes ids') :
    Renames oldRoot root (renamingFor oldRoot root ids r olds).1 ∧
      (∀ old, old ∈ olds ∨ (∃ id, r.get? old = some id) →
        ∃ id, (renamingFor oldRoot root ids r olds).1.get? old = some id) := by
  induction olds generalizing r ids with
  | nil =>
    refine ⟨hr, ?_⟩
    intro old hold
    rcases hold with hold | hold
    · cases hold
    · exact hold
  | cons first olds ih =>
    rw [renamingFor] at hids ⊢
    by_cases hroot : first = oldRoot
    · rw [if_pos hroot] at hids ⊢
      have hr' : Renames oldRoot root (r.insert first root) :=
        hr.insert (iff_of_true rfl hroot)
      obtain ⟨hrenames, hall⟩ := ih hfresh hr' hids
      exact ⟨hrenames, fun old hold => hall old (known_insert hold root)⟩
    · rw [if_neg hroot] at hids ⊢
      have hnew := hfresh.mint ((precedes_renamingFor oldRoot root ids.mint.2 _ olds).trans hids)
      have hfresh₁ := hfresh.of_precedes (IdSupply.Precedes.mint ids)
      have hr' : Renames oldRoot root (r.insert first ids.mint.1) :=
        hr.insert (iff_of_false hnew hroot)
      obtain ⟨hrenames, hall⟩ := ih hfresh₁ hr' hids
      exact ⟨hrenames, fun old hold => hall old (known_insert hold ids.mint.1)⟩

/-- Of the nodes of a graph only the root gets the new root as its id. -/
theorem Renames.apply_eq_iff {r : Renaming} (hr : Renames g.root root r)
    (hknown : ∀ old ∈ g.nodes.keys, ∃ id, r.get? old = some id) (hkeyed : g.IsKeyed)
    (ho : g.get? g.root = some o) {q : Object} (hq : q ∈ g.nodes.values) :
    r.apply q.id = root ↔ q = o := by
  obtain ⟨⟨old, q'⟩, hmem, rfl⟩ := List.mem_map.1 hq
  have hold : g.nodes.get? old = some q' := (OrderedMap.get?_eq_some_iff _ _ _).2 hmem
  have hqid := hkeyed old q' hold
  obtain ⟨new, hnew⟩ := hknown old (List.mem_map_of_mem hmem)
  have happly : r.apply old = new := by
    rw [Renaming.apply, hnew, Option.getD_some]
  dsimp only
  rw [hqid, happly]
  by_cases hroot : old = g.root
  · subst hroot
    have hsame : q' = o := Option.some.inj (hold.symm.trans ho)
    exact iff_of_true (hr.root new hnew) hsame
  · refine iff_of_false (hr.others old new hroot hnew) ?_
    intro hsame
    exact hroot (hqid.symm.trans (hsame ▸ hkeyed g.root o ho))

theorem precedes_copy (g : EventGraph) (root : ObjectId) (ids : IdSupply) :
    ids.Precedes (g.copy root ids).2.2 := precedes_renamingFor g.root root ids ∅ g.nodes.keys

/-- A renamed graph has an event at its new root. -/
theorem HasEvent.rename (h : g.HasEvent) (hkeyed : g.IsKeyed) {r : Renaming}
    (hr : Renames g.root root r) (hknown : ∀ old ∈ g.nodes.keys, ∃ id, r.get? old = some id) :
    (g.rename r root).HasEvent := by
  obtain ⟨o, ho, -, hclass⟩ := h
  have hvalue : o ∈ g.nodes.values :=
    List.mem_map.2 ⟨(g.root, o), (OrderedMap.get?_eq_some_iff _ _ _).1 ho, rfl⟩
  have hrename : (renameNode r o).id = root := (hr.apply_eq_iff hknown hkeyed ho hvalue).2 rfl
  have hrenamed : renameNode r o ∈ g.nodes.values.map (renameNode r) := List.mem_map_of_mem hvalue
  obtain ⟨o', ho'⟩ := exists_definition hrenamed
  rw [hrename] at ho'
  obtain ⟨hmem, hid'⟩ := mem_of_definitions ho'
  refine ⟨o', ho', hid', ?_⟩
  obtain ⟨q, hq, rfl⟩ := List.mem_map.1 hmem
  rw [(hr.apply_eq_iff hknown hkeyed ho hq).1 hid']
  exact hclass

/-- The renaming of a copy gives every node a new id. -/
theorem renames_copy (hfresh : IsFresh root ids ids')
    (hids : (g.copy root ids).2.2.Precedes ids') :
    Renames g.root root (g.copy root ids).2.1 ∧
      ∀ old ∈ g.nodes.keys, ∃ id, (g.copy root ids).2.1.get? old = some id := by
  have hempty : Renames g.root root ∅ := by
    constructor
    · intro id hnone
      cases hnone
    · intro old id hne hnone
      cases hnone
  obtain ⟨hrenames, hall⟩ := renames_renamingFor hfresh hempty hids
  exact ⟨hrenames, fun old hold => hall old (Or.inl hold)⟩

/-- The root of a copy is the old root under its new id. -/
theorem HasEvent.copy (h : g.HasEvent) (hkeyed : g.IsKeyed) (hfresh : IsFresh root ids ids')
    (hids : (g.copy root ids).2.2.Precedes ids') :
    (g.copy root ids).1.HasEvent ∧ (g.copy root ids).1.root = root := by
  obtain ⟨hrenames, hall⟩ := renames_copy hfresh hids
  exact ⟨h.rename hkeyed hrenames hall, rfl⟩

/-! ## Changes -/

theorem get?_update (g : EventGraph) (id : ObjectId) (f : Object → Object) (j : ObjectId) :
    (g.update id f).get? j = if id = j then (g.get? j).map f else g.get? j := by
  unfold update get?
  cases hid : g.nodes.get? id with
  | none =>
    by_cases hj : id = j
    · subst hj
      rw [if_pos rfl, hid]
      rfl
    · rw [if_neg hj]
  | some o =>
    dsimp only
    rw [OrderedMap.get?_insert]
    by_cases hj : id = j
    · subst hj
      rw [if_pos rfl, if_pos rfl, hid]
      rfl
    · rw [if_neg hj, if_neg hj]

theorem root_update (g : EventGraph) (id : ObjectId) (f : Object → Object) :
    (g.update id f).root = g.root := by
  unfold update
  split <;> rfl

/-- Changes that leave ids and classes leave the event. -/
theorem HasEvent.update (h : g.HasEvent) (id : ObjectId) {f : Object → Object}
    (hid : ∀ o, (f o).id = o.id) (hclass : ∀ o, (f o).objectClass = o.objectClass) :
    (g.update id f).HasEvent := by
  obtain ⟨o, ho, hoid, hoclass⟩ := h
  unfold HasEvent
  rw [root_update, get?_update, ho]
  by_cases hroot : id = g.root
  · rw [if_pos hroot]
    exact ⟨f o, rfl, (hid o).trans hoid, (hclass o).trans hoclass⟩
  · rw [if_neg hroot]
    exact ⟨o, rfl, hoid, hoclass⟩

theorem HasEvent.insert (h : g.HasEvent) (hne : o.id ≠ g.root) : (g.insert o).HasEvent := by
  obtain ⟨event, hevent, hrest⟩ := h
  refine ⟨event, ?_, hrest⟩
  show (g.nodes.insert o.id o).get? g.root = _
  rw [OrderedMap.get?_insert, if_neg hne]
  exact hevent

theorem HasEvent.insertAll {os : List Object} (h : g.HasEvent) (hne : ∀ o ∈ os, o.id ≠ g.root) :
    (g.insertAll os).HasEvent ∧ (g.insertAll os).root = g.root := by
  induction os generalizing g with
  | nil => exact ⟨h, rfl⟩
  | cons o os ih =>
    exact ih (h.insert (hne o List.mem_cons_self)) fun q hq => hne q (List.mem_cons_of_mem _ hq)

theorem HasEvent.override (h : g.HasEvent) (v : Overrides) :
    (g.override v).1.HasEvent ∧ (g.override v).1.root = g.root := by
  obtain ⟨o, ho, hid, hclass⟩ :=
    h.update g.root (f := overrideRoot v) (fun _ => rfl) (fun _ => rfl)
  have hroot := root_update g g.root (overrideRoot v)
  refine ⟨⟨overrideOutput v o, ?_, ?_, ?_⟩, hroot⟩
  · show ((g.update g.root (overrideRoot v)).nodes.mapValues
      fun _ o => overrideOutput v o).get? _ = _
    rw [OrderedMap.get?_mapValues]
    exact congrArg (Option.map (overrideOutput v)) ho
  · unfold overrideOutput
    split <;> exact hid
  · unfold overrideOutput
    split <;> exact hclass

/-! ## Media -/

theorem precedes_soundsFor (masterAssetFolder : ObjectId) (ids : IdSupply)
    (media : List PreparedMedia) : ids.Precedes (soundsFor masterAssetFolder ids media).2 := by
  induction media generalizing ids with
  | nil => exact .refl ids
  | cons m ms ih =>
    have hmint := (IdSupply.Precedes.mint ids).trans (IdSupply.Precedes.mint ids.mint.2)
    exact hmint.trans (ih ids.mint.2.mint.2)

theorem soundsFor_ids (hfresh : IsFresh root ids ids') {masterAssetFolder : ObjectId}
    {media : List PreparedMedia} (hids : (soundsFor masterAssetFolder ids media).2.Precedes ids') :
    ∀ p ∈ (soundsFor masterAssetFolder ids media).1, p.2.id ≠ root := by
  induction media generalizing ids with
  | nil => simp [soundsFor]
  | cons m ms ih =>
    have hfresh₁ := hfresh.of_precedes (IdSupply.Precedes.mint ids)
    have hfresh₂ := hfresh₁.of_precedes (IdSupply.Precedes.mint ids.mint.2)
    have hrest := precedes_soundsFor masterAssetFolder ids.mint.2.mint.2 ms
    intro p hp
    rcases List.mem_cons.1 hp with rfl | hp
    · exact hfresh₁.mint (hrest.trans hids)
    · exact ih hfresh₂ hids p hp

theorem newGroupTrack_ids (g : EventGraph) (hfresh : IsFresh root ids ids')
    (hids : (g.newGroupTrack ids).2.2.Precedes ids') :
    ∀ o ∈ (g.newGroupTrack ids).1 :: (g.newGroupTrack ids).2.1, o.id ≠ root := by
  -- five ids are minted: for the fader, the panner, the chain, the group and the track
  have hids₅ : ids.mint.2.mint.2.mint.2.mint.2.mint.2.Precedes ids' := hids
  have hids₄ := (IdSupply.Precedes.mint _).trans hids₅
  have hids₃ := (IdSupply.Precedes.mint _).trans hids₄
  have hids₂ := (IdSupply.Precedes.mint _).trans hids₃
  have hids₁ := (IdSupply.Precedes.mint _).trans hids₂
  have hfresh₁ := hfresh.of_precedes (IdSupply.Precedes.mint _)
  have hfresh₂ := hfresh₁.of_precedes (IdSupply.Precedes.mint _)
  have hfresh₃ := hfresh₂.of_precedes (IdSupply.Precedes.mint _)
  have hfresh₄ := hfresh₃.of_precedes (IdSupply.Precedes.mint _)
  unfold newGroupTrack
  dsimp only
  simp only [List.forall_mem_cons]
  refine ⟨hfresh₄.mint hids₅, ?_, hfresh₂.mint hids₃, hfresh₁.mint hids₂, hfresh.mint hids₁,
    by simp⟩
  split <;> exact hfresh₃.mint hids₄

theorem precedes_withGroupTrack (g : EventGraph) (ids : IdSupply) :
    ids.Precedes (g.withGroupTrack ids).2.2 := by
  unfold withGroupTrack
  split
  · exact .refl ids
  · exact ⟨rfl, Nat.le_add_right ids.issued 5⟩

theorem HasEvent.withGroupTrack (h : g.HasEvent) (hfresh : IsFresh g.root ids ids')
    (hids : (g.withGroupTrack ids).2.2.Precedes ids') :
    (g.withGroupTrack ids).1.HasEvent ∧ (g.withGroupTrack ids).1.root = g.root := by
  unfold EventGraph.withGroupTrack at hids ⊢
  split at hids
  · exact ⟨h, rfl⟩
  · have hnew := newGroupTrack_ids g hfresh hids
    have hevent := h.update g.root
      (f := fun o => o.pushEdge "groupTracks" (g.newGroupTrack ids).1.id)
      (fun _ => rfl) (fun _ => rfl)
    have hroot := root_update g g.root fun o => o.pushEdge "groupTracks" (g.newGroupTrack ids).1.id
    rw [← hroot] at hnew
    obtain ⟨hall, hallroot⟩ := hevent.insertAll hnew
    exact ⟨hall, hallroot.trans hroot⟩

theorem HasEvent.setModules (h : g.HasEvent) (node module : ObjectId) :
    (g.setModules node module).HasEvent ∧ (g.setModules node module).root = g.root :=
  ⟨h.update node (fun _ => rfl) (fun _ => rfl), root_update g node _⟩

theorem HasEvent.setTimeline (h : g.HasEvent) (module : ObjectId) :
    (g.setTimeline module).HasEvent ∧ (g.setTimeline module).root = g.root := by
  unfold EventGraph.setTimeline
  split
  · exact h.setModules _ module
  · exact ⟨h, rfl⟩

theorem precedes_graft (g : EventGraph) (media : List PreparedMedia) (ids : IdSupply)
    (masterAssetFolder : ObjectId) : ids.Precedes (g.graft media ids masterAssetFolder).2.2 := by
  cases media with
  | nil => exact .refl ids
  | cons first media =>
    have hsounds := precedes_soundsFor masterAssetFolder ids (first :: media)
    exact (hsounds.trans (IdSupply.Precedes.mint _)).trans (precedes_withGroupTrack _ _)

theorem HasEvent.graft (h : g.HasEvent) (hroot : g.root = root) (hfresh : IsFresh root ids ids')
    {media : List PreparedMedia} {masterAssetFolder : ObjectId}
    (hids : (g.graft media ids masterAssetFolder).2.2.Precedes ids') :
    (g.graft media ids masterAssetFolder).1.HasEvent ∧
      (g.graft media ids masterAssetFolder).1.root = root := by
  subst hroot
  cases media with
  | nil => exact ⟨h, rfl⟩
  | cons first media =>
    unfold EventGraph.graft at hids ⊢
    dsimp only at hids ⊢
    have hmint := (precedes_withGroupTrack _ _).trans hids
    have hsounds := soundsFor_ids hfresh ((IdSupply.Precedes.mint _).trans hmint)
    have hsounds' : ∀ o ∈ (soundsFor masterAssetFolder ids (first :: media)).1.map Prod.snd,
        o.id ≠ g.root := by
      intro o ho
      obtain ⟨p, hp, rfl⟩ := List.mem_map.1 ho
      exact hsounds p hp
    obtain ⟨hevent₁, hroot₁⟩ := h.insertAll hsounds'
    have hfresh₁ := hfresh.of_precedes (precedes_soundsFor masterAssetFolder ids (first :: media))
    have hmulti := hfresh₁.mint hmint
    have hfresh₂ := hfresh₁.of_precedes (IdSupply.Precedes.mint _)
    rw [← hroot₁] at hmulti hfresh₂
    have hevent₂ := hevent₁.insert (o := multiSound _ first
      ((soundsFor masterAssetFolder ids (first :: media)).1.map fun s => s.2.id)) hmulti
    obtain ⟨hevent₃, hroot₃⟩ := hevent₂.withGroupTrack hfresh₂ hids
    obtain ⟨hevent₄, hroot₄⟩ := hevent₃.setModules _ _
    obtain ⟨hevent₅, hroot₅⟩ := hevent₄.setTimeline _
    exact ⟨hevent₅, hroot₅.trans (hroot₄.trans (hroot₃.trans hroot₁))⟩

/-! ## A copy with media -/

variable {v : Overrides} {media : List PreparedMedia} {masterAssetFolder : ObjectId}
  {event : EventGraph} {audio : List Object}

theorem precedes_graft_copy
    (h : ((g.copy root ids).1.override v).1.graft media (g.copy root ids).2.2 masterAssetFolder =
      (event, audio, ids')) :
    ids.Precedes (g.copy root ids).2.2 ∧ (g.copy root ids).2.2.Precedes ids' := by
  have hgraft := precedes_graft ((g.copy root ids).1.override v).1 media (g.copy root ids).2.2
    masterAssetFolder
  rw [h] at hgraft
  exact ⟨precedes_copy g root ids, hgraft⟩

theorem HasEvent.graft_copy (hevent : g.HasEvent) (hkeyed : g.IsKeyed)
    (h : ((g.copy root ids).1.override v).1.graft media (g.copy root ids).2.2 masterAssetFolder =
      (event, audio, ids')) (hfresh : IsFresh root ids ids') :
    event.HasEvent ∧ event.root = root := by
  obtain ⟨hcopy, hgraft⟩ := precedes_graft_copy h
  obtain ⟨hevent₁, hroot₁⟩ := hevent.copy hkeyed hfresh hgraft
  obtain ⟨hevent₂, hroot₂⟩ := hevent₁.override v
  have hids : (((g.copy root ids).1.override v).1.graft media (g.copy root ids).2.2
      masterAssetFolder).2.2.Precedes ids' := by
    rw [h]
    exact .refl _
  have hevent₃ := hevent₂.graft (hroot₂.trans hroot₁) (hfresh.of_precedes hcopy) hids
  rw [h] at hevent₃
  exact hevent₃

end EventGraph

end AudioProject
