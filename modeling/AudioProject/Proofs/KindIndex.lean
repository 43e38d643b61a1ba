import AudioProject.KindIndex
import AudioProject.Proofs.Hierarchy
import AudioProject.Proofs.OrderedMap

/-
  What an entry that is put into an index changes: what is found under its id, the pointer from it,
  and the path it takes. Objects are put in one after another, so what one entry keeps, a list of
  objects keeps (`insertObjects_induction`); only entries have pointers, and the child lists agree
  with the pointers (`IsSound`). Two entries that share neither id nor path may come in any order
  (`Alike.insert_comm`), so one of its own kind may come first or last (`Alike.foldl_insert_comm`).
-/

namespace AudioProject

theorem IndexEntry.id_ofObject? {k : Kind} {o : Object} {e : IndexEntry}
    (h : ofObject? k o = some e) : e.id = o.id := by
  obtain ⟨p, -, rfl⟩ := Option.map_eq_some_iff.1 h
  rfl

namespace KindIndex

variable {x : KindIndex} {e : IndexEntry}

/-! ## One entry -/

theorem kind_insert (x : KindIndex) (e : IndexEntry) : (x.insert e).kind = x.kind := rfl

theorem get?_insert (x : KindIndex) (e : IndexEntry) (id : ObjectId) :
    (x.insert e).get? id = if e.id = id then some e else x.get? id :=
  x.entries.get?_insert e.id id e

theorem contains_insert (x : KindIndex) (e : IndexEntry) (id : ObjectId) :
    (x.insert e).contains id = (decide (e.id = id) || x.contains id) :=
  x.entries.contains_insert e.id id e

theorem contains_eq (x : KindIndex) (id : ObjectId) : x.contains id = (x.get? id).isSome := rfl

theorem tree_insert (x : KindIndex) (e : IndexEntry) :
    (x.insert e).tree = match e.parent? with
      | some p => x.tree.addEdge e.id p
      | none => x.tree := rfl

/-- An entry without parent leaves the pointer that its id had. -/
theorem parent?_insert (x : KindIndex) (e : IndexEntry) (id : ObjectId) :
    (x.insert e).tree.parent? id =
      if e.id = id then e.parent?.or (x.tree.parent? id) else x.tree.parent? id := by
  rw [tree_insert]
  cases e.parent? with
  | none => simp
  | some p =>
    dsimp only
    rw [Hierarchy.parent?_addEdge]
    rfl

theorem paths_insert (x : KindIndex) (e : IndexEntry) (p : AssetPath) :
    (x.insert e).paths.get? p = if e.assetPath? = some p then some e.id else x.paths.get? p := by
  cases hpath : e.assetPath? with
  | none =>
    simp only [insert, hpath]
    rw [if_neg (by simp)]
  | some q =>
    simp only [insert, hpath]
    rw [OrderedMap.get?_insert]
    by_cases hq : q = p <;> simp [hq]

/-- A new entry only takes the path that it has. -/
theorem byPath?_of_insert {e' : IndexEntry} {p : AssetPath} (hnew : x.contains e.id = false)
    (h : (x.insert e).byPath? p = some e') (hp : e'.assetPath? ≠ some p) :
    x.byPath? p = some e' := by
  unfold byPath? at h ⊢
  obtain ⟨id, hid, he⟩ := Option.bind_eq_some_iff.1 h
  rw [paths_insert] at hid
  rw [get?_insert] at he
  split at hid
  · next hpath =>
    cases hid
    rw [if_pos rfl] at he
    cases he
    exact absurd hpath hp
  · -- the path leads to an old id, which is not that of the new entry
    have hne : e.id ≠ id := by
      rintro rfl
      have hin : x.contains e.id = true := x.known p e.id hid
      rw [hnew] at hin
      cases hin
    rw [if_neg hne] at he
    rw [hid]
    exact he

/-! ## Objects in a row -/

theorem insertObjects_cons (x : KindIndex) (o : Object) (os : List Object) :
    x.insertObjects (o :: os) =
      (match IndexEntry.ofObject? x.kind o with
        | some e => x.insert e
        | none => x).insertObjects os := rfl

/-- What every entry of the kind keeps, a list of objects keeps. -/
theorem insertObjects_induction {P : KindIndex → Prop} {os : List Object} (hx : P x)
    (step : ∀ y o e, o ∈ os → IndexEntry.ofObject? x.kind o = some e → P y → P (y.insert e)) :
    P (x.insertObjects os) := by
  induction os generalizing x with
  | nil => exact hx
  | cons o os ih =>
    rw [insertObjects_cons]
    cases he : IndexEntry.ofObject? x.kind o with
    | none => exact ih hx fun y o' e ho => step y o' e (List.mem_cons_of_mem _ ho)
    | some e =>
      exact ih (x := x.insert e) (step x o e List.mem_cons_self he hx)
        fun y o' e' ho => step y o' e' (List.mem_cons_of_mem _ ho)

/-- The objects that do not belong to the kind leave no trace. -/
theorem insertObjects_eq_foldl (x : KindIndex) (os : List Object) :
    x.insertObjects os = (os.filterMap (IndexEntry.ofObject? x.kind)).foldl insert x := by
  induction os generalizing x with
  | nil => rfl
  | cons o os ih =>
    rw [insertObjects_cons, ih]
    cases he : IndexEntry.ofObject? x.kind o with
    | none => rw [List.filterMap_cons_none he]
    | some e => rw [List.filterMap_cons_some he, List.foldl_cons, kind_insert]

theorem contains_foldl_insert {es : List IndexEntry} {id : ObjectId} :
    (es.foldl insert x).contains id = true ↔ x.contains id = true ∨ ∃ e ∈ es, e.id = id := by
  induction es generalizing x with
  | nil => simp
  | cons e es ih =>
    rw [List.foldl_cons, ih, contains_insert, Bool.or_eq_true, decide_eq_true_iff]
    simp only [List.mem_cons, exists_eq_or_imp]
    rw [or_assoc, or_left_comm]

theorem paths_foldl_insert {es : List IndexEntry} {p : AssetPath} :
    ((es.foldl insert x).paths.get? p).isSome = true ↔
      (x.paths.get? p).isSome = true ∨ ∃ e ∈ es, e.assetPath? = some p := by
  induction es generalizing x with
  | nil => simp
  | cons e es ih =>
    have hstep : ((x.insert e).paths.get? p).isSome = true ↔
        e.assetPath? = some p ∨ (x.paths.get? p).isSome = true := by
      rw [paths_insert]
      by_cases hp : e.assetPath? = some p <;> simp [hp]
    rw [List.foldl_cons, ih, hstep]
    simp only [List.mem_cons, exists_eq_or_imp]
    rw [or_assoc, or_left_comm]

theorem contains_insertObjects {os : List Object} {id : ObjectId} :
    (x.insertObjects os).contains id = true ↔ x.contains id = true ∨
      ∃ o ∈ os, ∃ e, IndexEntry.ofObject? x.kind o = some e ∧ e.id = id := by
  rw [insertObjects_eq_foldl, contains_foldl_insert]
  simp only [List.mem_filterMap]
  constructor
  · rintro (h | ⟨e, ⟨o, ho, he⟩, hid⟩)
    · exact Or.inl h
    · exact Or.inr ⟨o, ho, e, he, hid⟩
  · rintro (h | ⟨o, ho, e, he, hid⟩)
    · exact Or.inl h
    · exact Or.inr ⟨e, ⟨o, ho, he⟩, hid⟩

theorem paths_insertObjects {os : List Object} {p : AssetPath} :
    ((x.insertObjects os).paths.get? p).isSome = true ↔ (x.paths.get? p).isSome = true ∨
      ∃ o ∈ os, ∃ e, IndexEntry.ofObject? x.kind o = some e ∧ e.assetPath? = some p := by
  rw [insertObjects_eq_foldl, paths_foldl_insert]
  simp only [List.mem_filterMap]
  constructor
  · rintro (h | ⟨e, ⟨o, ho, he⟩, hp⟩)
    · exact Or.inl h
    · exact Or.inr ⟨o, ho, e, he, hp⟩
  · rintro (h | ⟨o, ho, e, he, hp⟩)
    · exact Or.inl h
    · exact Or.inr ⟨e, ⟨o, ho, he⟩, hp⟩

/-! ## What is found -/

/-- The entry that the last object of the kind with this id has. -/
def lastOf? (k : Kind) (os : List Object) (id : ObjectId) : Option IndexEntry :=
  (OrderedMap.ofList ((os.filterMap (IndexEntry.ofObject? k)).map fun e => (e.id, e))).get? id

theorem exists_of_lastOf? {k : Kind} {os : List Object} {id : ObjectId}
    (h : lastOf? k os id = some e) :
    e.id = id ∧ ∃ o ∈ os, IndexEntry.ofObject? k o = some e := by
  obtain ⟨e', hmem, hpair⟩ := List.mem_map.1 (OrderedMap.mem_of_get?_ofList h)
  obtain ⟨hid, rfl⟩ := Prod.mk.inj hpair
  exact ⟨hid, List.mem_filterMap.1 hmem⟩

theorem lastOf?_append (k : Kind) (os os' : List Object) (id : ObjectId) :
    lastOf? k (os ++ os') id = (lastOf? k os' id).or (lastOf? k os id) := by
  unfold lastOf?
  rw [List.filterMap_append, List.map_append, OrderedMap.get?_ofList_append]

/-- Of the objects with the same id the last one counts. -/
theorem get?_insertObjects (x : KindIndex) (os : List Object) (id : ObjectId) :
    (x.insertObjects os).get? id = (lastOf? x.kind os id).or (x.get? id) := by
  have hentries : ∀ (es : List IndexEntry) (x : KindIndex), (es.foldl insert x).entries =
      (es.map fun e => (e.id, e)).foldl (fun m p => m.insert p.1 p.2) x.entries := by
    intro es
    induction es with
    | nil => exact fun _ => rfl
    | cons e es ih => exact fun x => ih (x.insert e)
  unfold get? lastOf?
  rw [insertObjects_eq_foldl, hentries, OrderedMap.get?_foldl_insert]

theorem exists_of_get?_insertObjects {os : List Object} {id : ObjectId}
    (h : (x.insertObjects os).get? id = some e) :
    x.get? id = some e ∨ ∃ o ∈ os, IndexEntry.ofObject? x.kind o = some e := by
  rw [get?_insertObjects, Option.or_eq_some_iff] at h
  rcases h with hlast | ⟨-, hold⟩
  · exact Or.inr (exists_of_lastOf? hlast).2
  · exact Or.inl hold

/-- Objects that come in between only bring their own entries. -/
theorem get?_of_insertObjects_between {os new os' : List Object} {id : ObjectId}
    (h : (x.insertObjects (os ++ (new ++ os'))).get? id = some e) :
    (x.insertObjects (os ++ os')).get? id = some e ∨
      ∃ o ∈ new, IndexEntry.ofObject? x.kind o = some e := by
  simp only [get?_insertObjects, lastOf?_append] at h ⊢
  cases hafter : lastOf? x.kind os' id with
  | some _ => exact Or.inl (by simpa [hafter] using h)
  | none =>
    cases hnew : lastOf? x.kind new id with
    | none => exact Or.inl (by simpa [hafter, hnew] using h)
    | some _ =>
      obtain rfl : _ = e := by simpa [hafter, hnew] using h
      exact Or.inr (exists_of_lastOf? hnew).2

theorem mem_list_iff : e ∈ x.list ↔ x.get? e.id = some e := by
  unfold list get? OrderedMap.values
  rw [List.mem_map, OrderedMap.get?_eq_some_iff]
  constructor
  · rintro ⟨⟨id, e'⟩, hmem, rfl⟩
    have hid := x.keyed id e' ((OrderedMap.get?_eq_some_iff _ _ _).2 hmem)
    rwa [hid]
  · exact fun hmem => ⟨_, hmem, rfl⟩

theorem nodup_ids (x : KindIndex) : (x.list.map IndexEntry.id).Nodup := by
  have hkeys : x.list.map IndexEntry.id = x.entries.keys := by
    unfold list OrderedMap.values OrderedMap.keys
    rw [List.map_map]
    exact List.map_congr_left fun p hp =>
      x.keyed p.1 p.2 ((OrderedMap.get?_eq_some_iff _ _ _).2 hp)
  rw [hkeys]
  exact x.entries.nodup

/-- The roots of an index are this one and no other, if its entry is a root and no other is. -/
theorem ids_roots_eq_singleton {id : ObjectId} : x.roots.map IndexEntry.id = [id] ↔
    x.contains id = true ∧ ∀ e, x.get? e.id = some e → (e.isRoot = true ↔ e.id = id) := by
  have hmem : ∀ i, i ∈ x.roots.map IndexEntry.id ↔
      ∃ e, x.get? e.id = some e ∧ e.isRoot = true ∧ e.id = i := by
    intro i
    unfold roots
    simp only [List.mem_map, List.mem_filter, mem_list_iff, and_assoc]
  constructor
  · intro h
    rw [h] at hmem
    obtain ⟨e, he, hroot, hid⟩ := (hmem id).1 (List.mem_singleton.2 rfl)
    refine ⟨?_, fun e' he' => ⟨fun hroot' => ?_, fun hid' => ?_⟩⟩
    · rw [contains_eq, ← hid, he]
      rfl
    · exact List.mem_singleton.1 ((hmem e'.id).2 ⟨e', he', hroot', rfl⟩)
    · rw [hid', ← hid, he] at he'
      cases he'
      exact hroot
  · rintro ⟨hin, hall⟩
    have hnodup : (x.roots.map IndexEntry.id).Nodup :=
      (List.Sublist.map _ List.filter_sublist).nodup x.nodup_ids
    have hroots : ∀ i, i ∈ x.roots.map IndexEntry.id ↔ i ∈ [id] := by
      intro i
      rw [hmem, List.mem_singleton]
      constructor
      · rintro ⟨e, he, hroot, rfl⟩
        exact (hall e he).1 hroot
      · rintro rfl
        rw [contains_eq] at hin
        obtain ⟨e, he⟩ := Option.isSome_iff_exists.1 hin
        have hid : e.id = i := x.keyed i e he
        rw [← hid] at he
        exact ⟨e, he, (hall e he).2 hid, hid⟩
    exact List.perm_singleton.1 ((List.perm_ext_iff_of_nodup hnodup (by simp)).2 hroots)

/-! ## Trees -/

/-- Only entries have pointers, and the child lists agree with the pointers. -/
structure IsSound (x : KindIndex) : Prop where
  rooted : ∀ id p, x.tree.parent? id = some p → x.contains id = true
  coherent : x.tree.Coherent

theorem IsSound.empty (k : Kind) : (KindIndex.empty k).IsSound where
  rooted := by
    intro id p hp
    cases hp
  coherent := .empty

theorem IsSound.insert (h : x.IsSound) (e : IndexEntry) : (x.insert e).IsSound where
  rooted := by
    intro id p hp
    rw [parent?_insert] at hp
    rw [contains_insert, Bool.or_eq_true, decide_eq_true_iff]
    by_cases hid : e.id = id
    · exact Or.inl hid
    · rw [if_neg hid] at hp
      exact Or.inr (h.rooted id p hp)
  coherent := by
    rw [tree_insert]
    cases e.parent? with
    | none => exact h.coherent
    | some p => exact h.coherent.addEdge e.id p

theorem IsSound.insertObjects (h : x.IsSound) (os : List Object) : (x.insertObjects os).IsSound :=
  insertObjects_induction h fun _ _ e _ _ hy => hy.insert e

/-! ## The order of entries -/

/-- Two indices that answer alike, in whichever order their entries came. -/
structure Alike (x y : KindIndex) : Prop where
  get? : ∀ id, y.get? id = x.get? id
  parent? : ∀ id, y.tree.parent? id = x.tree.parent? id
  paths : ∀ p, y.paths.get? p = x.paths.get? p

namespace Alike

variable {y z : KindIndex}

theorem refl (x : KindIndex) : Alike x x := ⟨fun _ => rfl, fun _ => rfl, fun _ => rfl⟩

theorem symm (h : Alike x y) : Alike y x :=
  ⟨fun id => (h.get? id).symm, fun id => (h.parent? id).symm, fun p => (h.paths p).symm⟩

theorem trans (h : Alike x y) (h' : Alike y z) : Alike x z where
  get? := fun id => (h'.get? id).trans (h.get? id)
  parent? := fun id => (h'.parent? id).trans (h.parent? id)
  paths := fun p => (h'.paths p).trans (h.paths p)

theorem insert (h : Alike x y) (e : IndexEntry) : Alike (x.insert e) (y.insert e) where
  get? := by
    intro id
    rw [get?_insert, get?_insert, h.get?]
  parent? := by
    intro id
    rw [parent?_insert, parent?_insert, h.parent?]
  paths := by
    intro p
    rw [paths_insert, paths_insert, h.paths]

theorem foldl_insert (h : Alike x y) (es : List IndexEntry) :
    Alike (es.foldl KindIndex.insert x) (es.foldl KindIndex.insert y) := by
  induction es generalizing x y with
  | nil => exact h
  | cons e es ih => exact ih (h.insert e)

theorem insert_comm (x : KindIndex) {e e' : IndexEntry} (hid : e'.id ≠ e.id)
    (hpath : ∀ p, e.assetPath? = some p → e'.assetPath? ≠ some p) :
    Alike ((x.insert e).insert e') ((x.insert e').insert e) where
  get? := by
    intro id
    simp only [get?_insert]
    by_cases he : e.id = id
    · rw [if_pos he, if_neg fun h => hid (h.trans he.symm), if_pos he]
    · rw [if_neg he, if_neg he]
  parent? := by
    intro id
    simp only [parent?_insert]
    by_cases he : e.id = id
    · have hne : ¬ e'.id = id := fun h => hid (h.trans he.symm)
      simp only [if_pos he, if_neg hne]
    · simp only [if_neg he]
  paths := by
    intro p
    simp only [paths_insert]
    by_cases he : e.assetPath? = some p
    · rw [if_pos he, if_neg (hpath p he), if_pos he]
    · rw [if_neg he, if_neg he]

/-- An entry may come before others or after them, if it shares neither id nor path with them. -/
theorem foldl_insert_comm (x : KindIndex) {e : IndexEntry} {es : List IndexEntry}
    (hid : ∀ e' ∈ es, e'.id ≠ e.id)
    (hpath : ∀ e' ∈ es, ∀ p, e.assetPath? = some p → e'.assetPath? ≠ some p) :
    Alike (es.foldl KindIndex.insert (x.insert e)) ((es.foldl KindIndex.insert x).insert e) := by
  induction es generalizing x with
  | nil => exact .refl _
  | cons e' es ih =>
    have hfirst := insert_comm x (hid e' List.mem_cons_self) (hpath e' List.mem_cons_self)
    exact (hfirst.foldl_insert es).trans (ih (x.insert e')
      (fun e' he' => hid e' (List.mem_cons_of_mem _ he'))
      fun e' he' => hpath e' (List.mem_cons_of_mem _ he'))

/-- So may the objects of a document, if only one of them belongs to the kind. -/
theorem insertObjects_comm (x : KindIndex) {os new os' : List Object} {e : IndexEntry}
    (hnew : new.filterMap (IndexEntry.ofObject? x.kind) = [e])
    (hid : (x.insertObjects (os ++ os')).contains e.id = false)
    (hpath : ∀ p, e.assetPath? = some p →
      ((x.insertObjects (os ++ os')).paths.get? p).isSome = false) :
    Alike ((x.insertObjects (os ++ os')).insert e) (x.insertObjects (os ++ (new ++ os'))) := by
  simp only [insertObjects_eq_foldl, List.filterMap_append, hnew, List.foldl_append,
    List.singleton_append, List.foldl_cons] at hid hpath ⊢
  refine (foldl_insert_comm _ (fun e' he' hsame => ?_) fun e' he' p hp hsame => ?_).symm
  · rw [contains_foldl_insert.2 (Or.inr ⟨e', he', hsame⟩)] at hid
    cases hid
  · have hfree := hpath p hp
    rw [paths_foldl_insert.2 (Or.inr ⟨e', he', hsame⟩)] at hfree
    cases hfree

theorem contains (h : Alike x y) (id : ObjectId) : y.contains id = x.contains id := by
  rw [contains_eq, contains_eq, h.get?]

theorem byPath? (h : Alike x y) (p : AssetPath) : y.byPath? p = x.byPath? p := by
  unfold KindIndex.byPath?
  rw [h.paths]
  exact congrArg _ (funext h.get?)

end Alike

end KindIndex

end AudioProject
