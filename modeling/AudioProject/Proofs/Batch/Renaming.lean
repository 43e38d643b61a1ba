import AudioProject.Proofs.Batch.Wiring
import Mathlib.Data.List.Perm.Basic
import Mathlib.Logic.Equiv.Defs

/-
  Records under other ids. A record that is made of other ids is the same record renamed
  (`Form.rename_build`). A reference names the renamed id if the ids of the keys are renamed and
  others stay (`Names.rename`). So an item makes the renamed record (`Item.Makes.rename`), and
  records that can be staged can be staged under other ids and in another order
  (`Stageable.rename`, `Stageable.perm`).
-/

namespace AudioProject

theorem OrderedMap.mapValues_insert {κ ν ω : Type} [DecidableEq κ] (m : OrderedMap κ ν) (k : κ)
    (v : ν) (f : κ → ν → ω) : (m.insert k v).mapValues f = (m.mapValues f).insert k (f k v) := by
  apply ext
  show (insertPair k v m.toList).map (fun e => (e.1, f e.1 e.2)) =
    insertPair k (f k v) (m.toList.map fun e => (e.1, f e.1 e.2))
  induction m.toList with
  | nil => rfl
  | cons e es ih =>
    rw [List.map_cons, insertPair, insertPair]
    by_cases he : e.1 = k
    · rw [if_pos he, if_pos he, List.map_cons]
    · rw [if_neg he, if_neg he, List.map_cons, ih]

/-! ## Other ids -/

/-- An object under another id, with its edges led to other ids. -/
def Object.rename (f : ObjectId → ObjectId) (o : Object) : Object :=
  { o.mapEdges f with id := f o.id }

theorem Object.rename_new (f : ObjectId → ObjectId) (id : ObjectId) (c : ObjectClass) :
    Object.rename f { id := id, objectClass := c } = { id := f id, objectClass := c } := rfl

theorem Object.rename_setProperty (f : ObjectId → ObjectId) (o : Object) (name value : String) :
    (o.setProperty name value).rename f = (o.rename f).setProperty name value := rfl

theorem Object.rename_setEdge (f : ObjectId → ObjectId) (o : Object) (label : String)
    (ids : List ObjectId) :
    (o.setEdge label ids).rename f = (o.rename f).setEdge label (ids.map f) := by
  unfold rename mapEdges setEdge
  rw [OrderedMap.mapValues_insert]

theorem Object.edge_rename (f : ObjectId → ObjectId) (o : Object) (label : String) :
    (o.rename f).edge label = (o.edge label).map f := by
  unfold edge
  have hget : (o.rename f).edges.get? label = (o.edges.get? label).map (List.map f) :=
    OrderedMap.get?_mapValues _ _ _
  rw [hget]
  cases o.edges.get? label <;> rfl

namespace PendingRecord

def rename (f : ObjectId → ObjectId) (r : PendingRecord) : PendingRecord :=
  ⟨r.object.rename f, r.siblings.map (Object.rename f)⟩

theorem parent?_rename (f : ObjectId → ObjectId) (r : PendingRecord) (k : Kind) :
    (r.rename f).parent? k = (r.parent? k).map f := by
  unfold parent? Object.singleEdge?
  cases k.parentEdge? with
  | none => rfl
  | some label =>
    exact (congrArg List.head? (Object.edge_rename f r.object label)).trans List.head?_map

end PendingRecord

/-- The same records are staged under other ids, and perhaps in another order. -/
structure Staging.Renamed (ρ : Equiv.Perm ObjectId) (g g' : Staging) : Prop where
  tables : ∀ k, ((g.table k).values.map (PendingRecord.rename ρ)).Perm (g'.table k).values
  pending : ∀ id, g'.isPending (ρ id) = g.isPending id
  paths : ∀ p, g'.paths.get? p = (g.paths.get? p).map ρ

/-- A request that names other ids. -/
def Instantiation.Request.rename (f : ObjectId → ObjectId) (r : Request) : Request :=
  { r with template := f r.template, eventId? := r.eventId?.map f, folder := f r.folder,
           bank := f r.bank, bus := f r.bus }

namespace Batch

open Staging

variable {keys keys' : Keys} {f : ObjectId → ObjectId} {nth : Nat → ObjectId} {m n : Nat}

/-- A record that is made of other ids is the same record renamed. -/
theorem Form.rename_build (form : Form) (above : ObjectId)
    (h : ∀ j < form.width, f (nth (m + j)) = nth (n + j)) :
    (form.build above ⟨nth, m⟩).1.rename f = (form.build (f above) ⟨nth, n⟩).1 := by
  have hzero : f (nth m) = nth n := h 0 form.width_pos
  cases form with
  | inFolder c name =>
    simp only [build, PendingRecord.inFolder, IdSupply.mint, PendingRecord.rename,
      Object.rename_setEdge, Object.rename_setProperty, Object.rename_new, hzero, List.map]
  | bus name =>
    have hone : f (nth (m + 1)) = nth (n + 1) := h 1 (show 1 < 4 by decide)
    have htwo : f (nth (m + 1 + 1)) = nth (n + 1 + 1) := h 2 (show 2 < 4 by decide)
    have hthree : f (nth (m + 1 + 1 + 1)) = nth (n + 1 + 1 + 1) := h 3 (show 3 < 4 by decide)
    simp only [build, PendingRecord.bus, IdSupply.mint, PendingRecord.rename,
      Object.rename_setEdge, Object.rename_setProperty, Object.rename_new, hzero, hone, htwo,
      hthree, List.map]
  | assetFolder path =>
    simp only [build, PendingRecord.assetFolder, IdSupply.mint, PendingRecord.rename,
      Object.rename_setProperty, Object.rename_new, hzero, List.map]

/-! ## References -/

section References

variable (hkeys : ∀ key, keys'.get? key = (keys.get? key).map f)

include hkeys

theorem Names.rename {reference : String} {id : ObjectId} (h : Names keys reference id)
    (hfix : reference ∉ keys.keys → id.text = reference → f id = id) :
    Names keys' reference (f id) := by
  cases h with
  | entry h =>
    refine .entry ?_
    rw [hkeys, h]
    rfl
  | object h =>
    rw [hfix h rfl]
    refine .object fun hmem => h ?_
    obtain ⟨_, hget⟩ := (OrderedMap.mem_keys_iff _ _).1 hmem
    rw [hkeys] at hget
    obtain ⟨id', hid', -⟩ := Option.map_eq_some_iff.1 hget
    exact (OrderedMap.mem_keys_iff _ _).2 ⟨id', hid'⟩

theorem keyed_rename (key? : Option String) (r : PendingRecord) :
    keyed keys' key? (r.rename f) = (keyed keys key? r).rename f := by
  unfold keyed
  cases key? with
  | none => rfl
  | some key =>
    rw [Option.bind_some, Option.bind_some, hkeys]
    cases keys.get? key <;> rfl

/-- What an item makes of renamed ids is what it made before, renamed. -/
theorem Item.Makes.rename {x : Item} {q : Kind × PendingRecord} (h : Makes keys nth (x, m) q)
    (htop : f x.top = x.top)
    (hfix : ∀ reference ∈ x.above?, ∀ id : ObjectId, reference ∉ keys.keys → id.text = reference →
      f id = id)
    (hids : ∀ j < x.width, f (nth (m + j)) = nth (n + j)) :
    Makes keys' nth (x, n) (q.1, q.2.rename f) := by
  obtain ⟨above, habove, rfl⟩ := h
  refine ⟨f above, ?_, ?_⟩
  · dsimp only at habove ⊢
    cases hx : x.above? with
    | none =>
      rw [hx] at habove
      exact (congrArg f habove).trans htop
    | some reference =>
      rw [hx] at habove
      exact Names.rename hkeys habove (hfix reference hx above)
  · rw [← x.form.rename_build above hids, keyed_rename hkeys]

theorem Asks.rename {dir : Path} {e : EventEntry} {r : Instantiation.Request}
    (h : Asks keys dir e r)
    (hfix : ∀ reference ∈ [e.template, e.folder, e.bank, e.bus], ∀ id : ObjectId,
      reference ∉ keys.keys → id.text = reference → f id = id) :
    Asks keys' dir e (r.rename f) where
  template := h.template.rename hkeys (hfix _ (by simp) _)
  folder := h.folder.rename hkeys (hfix _ (by simp) _)
  bank := h.bank.rename hkeys (hfix _ (by simp) _)
  bus := h.bus.rename hkeys (hfix _ (by simp) _)
  id := by
    show r.eventId?.map f = _
    rw [h.id]
    cases e.key? with
    | none => rfl
    | some key => exact (hkeys key).symm
  name := h.name
  media := h.media

end References

/-! ## Staging -/

variable {s : Store} {qs qs' : List (Kind × PendingRecord)} {ρ : Equiv.Perm ObjectId}

/-- Records of a list under other ids. -/
def renameAll (f : ObjectId → ObjectId) (qs : List (Kind × PendingRecord)) :
    List (Kind × PendingRecord) := qs.map fun q => (q.1, q.2.rename f)

theorem Stageable.perm (h : Stageable s qs) (hperm : qs.Perm qs') : Stageable s qs' where
  acceptable := fun q hq => h.acceptable q (hperm.mem_iff.2 hq)
  ids := (hperm.map _).nodup_iff.1 h.ids
  paths := (hperm.filterMap _).nodup_iff.1 h.paths

/-- Ids that are not in the store change for others that are not. -/
theorem containsAny_eq_false_of_fixes (hfix : ∀ id, s.containsAny id = true → ρ id = id)
    {id : ObjectId} (h : s.containsAny id = false) : s.containsAny (ρ id) = false := by
  rw [← Bool.not_eq_true] at h ⊢
  intro hin
  rw [ρ.injective (hfix _ hin)] at hin
  exact h hin

theorem Stageable.rename (h : Stageable s qs)
    (hfix : ∀ id, s.containsAny id = true → ρ id = id) : Stageable s (renameAll ρ qs) where
  acceptable := by
    intro q hq
    obtain ⟨q, hmem, rfl⟩ := List.mem_map.1 hq
    obtain ⟨haccepts, houtput, hfree, hpath⟩ := h.acceptable q hmem
    refine ⟨haccepts, fun hnone => houtput ⟨hnone.1, ?_⟩, containsAny_eq_false_of_fixes hfix hfree,
      hpath⟩
    have hparent := hnone.2
    rwa [PendingRecord.parent?_rename, Option.map_eq_none_iff] at hparent
  ids := by
    have hids : (renameAll ρ qs).map (fun q => q.2.id) = (qs.map fun q => q.2.id).map ρ := by
      unfold renameAll
      rw [List.map_map, List.map_map]
      rfl
    rw [hids]
    exact h.ids.map ρ.injective
  paths := by
    unfold renameAll
    rw [List.filterMap_map]
    exact h.paths

theorem Stageable.renamed (h : Stageable s qs) (h' : Stageable s qs')
    (hperm : (renameAll ρ qs).Perm qs') : Staging.Renamed ρ (stagedOf {} qs) (stagedOf {} qs') where
  tables := by
    intro k
    rw [h.values_table, h'.values_table]
    have htable := (hperm.filter fun q => q.1 = k).map Prod.snd
    refine List.Perm.trans (.of_eq ?_) htable
    unfold renameAll
    rw [List.filter_map, List.map_map, List.map_map]
    rfl
  pending := by
    intro id
    have hids : (qs'.map fun q => q.2.id).Perm ((qs.map fun q => q.2.id).map ρ) := by
      refine (hperm.symm.map _).trans (.of_eq ?_)
      unfold renameAll
      rw [List.map_map, List.map_map]
      rfl
    rw [Bool.eq_iff_iff]
    show (stagedOf {} qs').pending.contains (ρ id) = true ↔
      (stagedOf {} qs).pending.contains id = true
    rw [OrderedMap.contains_iff, OrderedMap.contains_iff, h.keys_pending, h'.keys_pending,
      hids.mem_iff, List.mem_map_of_injective ρ.injective]
  paths := by
    intro p
    have hpaths := hperm.symm.filterMap fun q => (taken q.1 q.2).map fun p => (p, q.2.id)
    have hrename : (renameAll ρ qs).filterMap
        (fun q => (taken q.1 q.2).map fun p => (p, q.2.id)) =
        (qs.filterMap fun q => (taken q.1 q.2).map fun p => (p, q.2.id)).map
          fun e => (e.1, ρ e.2) := by
      unfold renameAll
      rw [List.filterMap_map, List.map_filterMap]
      refine congrArg (List.filterMap · qs) (funext fun q => ?_)
      rw [Option.map_map]
      rfl
    apply Option.ext
    intro id
    rw [hrename, ← h.toList_paths, ← h'.toList_paths] at hpaths
    rw [OrderedMap.get?_eq_some_iff, Option.map_eq_some_iff, hpaths.mem_iff, List.mem_map]
    constructor
    · rintro ⟨⟨p', id'⟩, hmem, heq⟩
      obtain ⟨rfl, rfl⟩ := Prod.mk.inj heq
      exact ⟨id', (OrderedMap.get?_eq_some_iff _ _ _).2 hmem, rfl⟩
    · rintro ⟨id', hid', rfl⟩
      exact ⟨(p, id'), (OrderedMap.get?_eq_some_iff _ _ _).1 hid', rfl⟩

end Batch

end AudioProject
