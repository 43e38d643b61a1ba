import AudioProject.Proofs.Action
import AudioProject.Proofs.KindIndex
import AudioProject.Staging.Commit

/-
  What is staged, next to the store that it is staged for. In itself it is sound
  (`Staging.Sound`): an id is pending once, whatever the kind, and its record stands under it in a
  table that takes its class. `Staging.Fits` says what staging checks besides: a pending id is in no
  index, and a path is only kept for a pending asset folder. Staging keeps this (`Fits.stage`), and
  so does taking a record out and putting its entry into the index (`Fits.commit`).
-/

namespace AudioProject

/-! ## Entries -/

theorem IndexEntry.masterClass?_ne {k : Kind} {c : ObjectClass} (h : k.accepts c = true) :
    masterClass? k ≠ some c := by
  intro hc
  have hkind : c.kind? = some k := of_decide_eq_true h
  cases k <;> cases hc <;> cases hkind

/-- Where an asset folder stands is its path. -/
theorem IndexEntry.position?_assetFolder {r : PendingRecord} {p : AssetPath}
    (hclass : Kind.accepts .assetFolder r.object.objectClass = true) (hp : r.assetPath? = some p) :
    position? .assetFolder r.object = some (.path p) := by
  unfold position?
  rw [if_neg (masterClass?_ne hclass), if_pos hclass]
  unfold PendingRecord.assetPath? at hp
  dsimp only [Kind.parentEdge?]
  cases htext : r.object.property? "assetPath" with
  | none =>
    rw [htext] at hp
    cases hp
  | some text =>
    rw [htext] at hp
    dsimp only at hp ⊢
    cases hq : AssetPath.ofString? text with
    | error e =>
      rw [hq] at hp
      cases hp
    | ok q =>
      rw [hq] at hp
      cases hp
      rfl

/-- Where an object of another kind stands is its parent, or the top. -/
theorem IndexEntry.position?_of_ne {k : Kind} {o : Object} (hclass : k.accepts o.objectClass = true)
    (hk : k ≠ .assetFolder) :
    position? k o = some .root ∨ ∃ id, position? k o = some (.parent id) := by
  have hedge : ∃ edge, k.parentEdge? = some edge := by
    cases k with
    | assetFolder => exact absurd rfl hk
    | eventFolder => exact ⟨_, rfl⟩
    | bank => exact ⟨_, rfl⟩
    | bus => exact ⟨_, rfl⟩
  obtain ⟨edge, hedge⟩ := hedge
  unfold position?
  rw [if_neg (masterClass?_ne hclass), if_pos hclass, hedge]
  dsimp only
  cases o.singleEdge? edge with
  | none => exact Or.inl rfl
  | some parent => exact Or.inr ⟨parent, rfl⟩

/-- A record has an entry if its class belongs to the kind, and its path is valid where the kind
needs one. The entry has that path. -/
theorem PendingRecord.exists_entry {k : Kind} {r : PendingRecord}
    (hclass : k.accepts r.object.objectClass = true)
    (hpath : k = .assetFolder → ∃ p, r.assetPath? = some p) :
    ∃ e, IndexEntry.ofObject? k r.object = some e ∧
      e.assetPath? = if k = .assetFolder then r.assetPath? else none := by
  unfold IndexEntry.ofObject?
  by_cases hk : k = .assetFolder
  · subst hk
    obtain ⟨p, hp⟩ := hpath rfl
    rw [IndexEntry.position?_assetFolder hclass hp, if_pos rfl, hp]
    exact ⟨_, rfl, rfl⟩
  · rw [if_neg hk]
    rcases IndexEntry.position?_of_ne hclass hk with h | ⟨id, h⟩
    · rw [h]
      exact ⟨_, rfl, rfl⟩
    · rw [h]
      exact ⟨_, rfl, rfl⟩

/-! ## The store -/

namespace Store

theorem lookup?_insert (s : Store) (k j : Kind) (e : IndexEntry) (id : ObjectId) :
    (s.insert k e).lookup? j id = if k = j ∧ e.id = id then some e else s.lookup? j id := by
  unfold lookup? index insert
  rw [ByKind.get_set]
  by_cases hk : k = j
  · subst hk
    rw [if_pos rfl]
    show ((s.indices.get k).entries.insert e.id e).get? id = _
    rw [OrderedMap.get?_insert]
    simp [KindIndex.get?]
  · rw [if_neg hk, if_neg (fun h => hk h.1)]

theorem contains_eq (s : Store) (k : Kind) (id : ObjectId) :
    s.contains k id = (s.lookup? k id).isSome := rfl

theorem contains_insert (s : Store) (k j : Kind) (e : IndexEntry) (id : ObjectId) :
    (s.insert k e).contains j id = (decide (k = j ∧ e.id = id) || s.contains j id) := by
  rw [contains_eq, contains_eq, lookup?_insert]
  by_cases h : k = j ∧ e.id = id <;> simp [h]

theorem containsAny_eq_false {s : Store} {id : ObjectId} :
    s.containsAny id = false ↔ ∀ k, s.contains k id = false := by
  unfold containsAny
  rw [List.any_eq_false]
  constructor
  · intro h k
    exact Bool.eq_false_iff.2 (h k (Kind.mem_all k))
  · intro h k _
    rw [h k]
    simp

/-- A path leads to a folder if it has been put in at all. -/
theorem assetFolderAt?_isSome (s : Store) (p : AssetPath) :
    (s.assetFolderAt? p).isSome = ((s.index .assetFolder).paths.get? p).isSome := by
  unfold assetFolderAt? KindIndex.byPath?
  cases hp : (s.index .assetFolder).paths.get? p with
  | none => rfl
  | some id => exact (s.index .assetFolder).known p id hp

theorem assetFolderAt?_insert (s : Store) (k : Kind) (e : IndexEntry) (p : AssetPath) :
    ((s.insert k e).assetFolderAt? p).isSome =
      (decide (k = .assetFolder ∧ e.assetPath? = some p) || (s.assetFolderAt? p).isSome) := by
  rw [assetFolderAt?_isSome, assetFolderAt?_isSome]
  unfold index insert
  rw [ByKind.get_set]
  by_cases hk : k = .assetFolder
  · subst hk
    rw [if_pos rfl]
    unfold KindIndex.insert index
    dsimp only
    cases hpath : e.assetPath? with
    | none => simp
    | some q =>
      dsimp only
      rw [OrderedMap.get?_insert]
      by_cases hq : q = p <;> simp [hq]
  · simp [hk]

end Store

/-! ## What is staged -/

namespace Staging

theorem get?_eq_some_iff (g : Staging) (k : Kind) (id : ObjectId) (r : PendingRecord) :
    g.get? k id = some r ↔ (id, r) ∈ (g.table k).toList :=
  OrderedMap.get?_eq_some_iff _ _ _

theorem mem_ids_iff (g : Staging) (k : Kind) (id : ObjectId) :
    id ∈ g.ids k ↔ ∃ r, g.get? k id = some r :=
  OrderedMap.mem_keys_iff _ _

theorem table_add (g : Staging) (k j : Kind) (r : PendingRecord) (path : Option AssetPath) :
    (g.add k r path).table j = if k = j then (g.table j).insert r.id r else g.table j := by
  show (g.tables.set k ((g.table k).insert r.id r)).get j = _
  rw [ByKind.get_set]
  by_cases hk : k = j
  · subst hk
    rfl
  · rw [if_neg hk, if_neg hk]
    rfl

theorem get?_empty (k : Kind) (id : ObjectId) : ({} : Staging).get? k id = none := by
  cases k <;> rfl

theorem get?_add (g : Staging) (k j : Kind) (r : PendingRecord) (path : Option AssetPath)
    (id : ObjectId) :
    (g.add k r path).get? j id = if k = j ∧ r.id = id then some r else g.get? j id := by
  unfold get?
  rw [table_add]
  by_cases hk : k = j
  · rw [if_pos hk, OrderedMap.get?_insert]
    simp [hk]
  · rw [if_neg hk, if_neg fun h => hk h.1]

/-- A new id comes last. -/
theorem ids_add {g : Staging} {k : Kind} {r : PendingRecord} (h : g.get? k r.id = none)
    (path : Option AssetPath) (j : Kind) :
    (g.add k r path).ids j = if k = j then g.ids j ++ [r.id] else g.ids j := by
  unfold ids
  rw [table_add]
  by_cases hk : k = j
  · subst hk
    have hnew : r.id ∉ (g.table k).keys := by
      rw [← OrderedMap.contains_iff, OrderedMap.contains, show (g.table k).get? r.id = none from h]
      exact Bool.false_ne_true
    rw [if_pos rfl, if_pos rfl, OrderedMap.keys_insert, if_neg hnew]
  · rw [if_neg hk, if_neg hk]

theorem table_take (g : Staging) (k j : Kind) (r : PendingRecord) :
    (g.take k r).table j = if k = j then (g.table j).erase r.id else g.table j := by
  unfold table take
  rw [ByKind.get_set]
  by_cases hk : k = j
  · subst hk
    rfl
  · rw [if_neg hk, if_neg hk]

theorem get?_take (g : Staging) (k j : Kind) (r : PendingRecord) (id : ObjectId) :
    (g.take k r).get? j id = if k = j ∧ r.id = id then none else g.get? j id := by
  unfold get?
  rw [table_take]
  by_cases hk : k = j
  · rw [if_pos hk, OrderedMap.get?_erase]
    simp [hk]
  · rw [if_neg hk, if_neg fun h => hk h.1]

theorem ids_take (g : Staging) (k j : Kind) (r : PendingRecord) :
    ((g.take k r).ids j).Sublist (g.ids j) := by
  unfold ids OrderedMap.keys
  rw [table_take]
  split
  · rw [OrderedMap.toList_erase]
    exact List.Sublist.map _ List.filter_sublist
  · exact .refl _

theorem isPending_add (g : Staging) (k : Kind) (r : PendingRecord) (path : Option AssetPath)
    (id : ObjectId) : (g.add k r path).isPending id = (decide (r.id = id) || g.isPending id) := by
  show ((g.pending.insert r.id ()).get? id).isSome = _
  rw [OrderedMap.get?_insert]
  by_cases hid : r.id = id <;> simp [hid, isPending, OrderedMap.contains]

theorem isPending_take (g : Staging) (k : Kind) (r : PendingRecord) (id : ObjectId) :
    (g.take k r).isPending id = (!decide (r.id = id) && g.isPending id) := by
  show ((g.pending.erase r.id).get? id).isSome = _
  rw [OrderedMap.get?_erase]
  by_cases hid : r.id = id <;> simp [hid, isPending, OrderedMap.contains]

/-- What staging has checked of a record, besides that its id was not in use. -/
structure Admitted (k : Kind) (r : PendingRecord) : Prop where
  accepts : k.accepts r.object.objectClass = true
  placed : k = .assetFolder → ∃ p, r.assetPath? = some p

/-- Staging a record goes through its checks in turn. A record that fails one of them changes
nothing. -/
theorem attempt_eq (s : Store) (k : Kind) (r : PendingRecord) (g : Staging) :
    attempt s k r g =
      if ¬ k.accepts r.object.objectClass then
        .error (.invalidRecord k r.id (.foreignClass r.object.objectClass)) g
      else if k = .bus ∧ r.parent? k = none then .error (.invalidRecord k r.id .noOutput) g
      else if g.isPending r.id || s.containsAny r.id then .error (.duplicateId r.id) g
      else
        match g.pathToTake s k r with
        | .ok path => .ok () (g.add k r path)
        | .error e => .error e g := by
  unfold attempt
  split
  · rfl
  split
  · rfl
  refine (Action.bind_of_ok (s := g) (t := g) (x := get) rfl _).trans ?_
  split
  · rfl
  cases hpath : g.pathToTake s k r with
  | error e =>
    have hread : Action.reading (fun g => g.pathToTake s k r) g = .error e g :=
      Action.reading_eq_error.2 ⟨hpath, rfl⟩
    exact Action.bind_of_error hread _
  | ok path =>
    have hread : Action.reading (fun g => g.pathToTake s k r) g = .ok path g :=
      Action.reading_eq_ok.2 ⟨hpath, rfl⟩
    exact Action.bind_of_ok hread _

theorem stage_eq (g : Staging) (s : Store) (k : Kind) (r : PendingRecord) :
    g.stage s k r =
      if ¬ k.accepts r.object.objectClass then
        .error (.invalidRecord k r.id (.foreignClass r.object.objectClass))
      else if k = .bus ∧ r.parent? k = none then .error (.invalidRecord k r.id .noOutput)
      else if g.isPending r.id || s.containsAny r.id then .error (.duplicateId r.id)
      else
        match g.pathToTake s k r with
        | .ok path => .ok (g.add k r path)
        | .error e => .error e := by
  unfold stage
  rw [attempt_eq]
  by_cases haccepts : ¬ k.accepts r.object.objectClass
  · rw [if_pos haccepts, if_pos haccepts]
  rw [if_neg haccepts, if_neg haccepts]
  by_cases houtput : k = .bus ∧ r.parent? k = none
  · rw [if_pos houtput, if_pos houtput]
  rw [if_neg houtput, if_neg houtput]
  by_cases hused : (g.isPending r.id || s.containsAny r.id) = true
  · rw [if_pos hused, if_pos hused]
  rw [if_neg hused, if_neg hused]
  cases g.pathToTake s k r <;> rfl

theorem attempt_eq_ok_iff {g g' : Staging} {s : Store} {k : Kind} {r : PendingRecord} :
    attempt s k r g = .ok () g' ↔ g.stage s k r = .ok g' := by
  unfold stage
  cases attempt s k r g <;> simp

/-- A record is staged if it passes every check. -/
theorem stage_passes_iff {g g' : Staging} {s : Store} {k : Kind} {r : PendingRecord} :
    g.stage s k r = .ok g' ↔
      k.accepts r.object.objectClass = true ∧ ¬ (k = .bus ∧ r.parent? k = none) ∧
        (g.isPending r.id = false ∧ s.containsAny r.id = false) ∧
        ∃ path, g.pathToTake s k r = .ok path ∧ g' = g.add k r path := by
  rw [stage_eq]
  constructor
  · intro h
    split at h
    · cases h
    next haccepts =>
    split at h
    · cases h
    next houtput =>
    split at h
    · cases h
    next hunused =>
    rw [Bool.not_eq_true, Bool.or_eq_false_iff] at hunused
    split at h
    · next path hpath =>
      cases h
      exact ⟨Decidable.not_not.1 haccepts, houtput, hunused, path, hpath, rfl⟩
    · cases h
  · rintro ⟨haccepts, houtput, ⟨hpending, hfree⟩, path, hpath, rfl⟩
    rw [if_neg (not_not.2 haccepts), if_neg houtput, if_neg (by simp [hpending, hfree]), hpath]

theorem holder?_eq_none {g : Staging} {s : Store} {p : AssetPath} :
    g.holder? s p = none ↔ (s.assetFolderAt? p).isSome = false ∧ g.paths.get? p = none := by
  unfold holder?
  cases s.assetFolderAt? p <;> simp

/-- An asset folder takes a path that is free, and no other record takes any. -/
theorem pathToTake_eq_ok {g : Staging} {s : Store} {k : Kind} {r : PendingRecord}
    {path : Option AssetPath} (h : g.pathToTake s k r = .ok path) :
    (k = .assetFolder ∧ ∃ p, path = some p ∧ r.assetPath? = some p ∧ g.holder? s p = none) ∨
      k ≠ .assetFolder ∧ path = none := by
  unfold pathToTake at h
  by_cases hk : k = .assetFolder
  · rw [if_pos hk] at h
    split at h
    · cases h
    next p hp =>
    split at h
    · cases h
    split at h
    · cases h
    next hfree =>
    cases h
    exact Or.inl ⟨hk, p, rfl, hp, hfree⟩
  · rw [if_neg hk] at h
    cases h
    exact Or.inr ⟨hk, rfl⟩

theorem stage_eq_ok {g g' : Staging} {s : Store} {k : Kind} {r : PendingRecord}
    (h : g.stage s k r = .ok g') :
    Admitted k r ∧ g.isPending r.id = false ∧ s.containsAny r.id = false ∧
      ∃ path, g' = g.add k r path ∧
        ∀ p, path = some p → k = .assetFolder ∧ r.assetPath? = some p := by
  obtain ⟨haccepts, -, ⟨hpending, hfree⟩, path, hpath, rfl⟩ := stage_passes_iff.1 h
  rcases pathToTake_eq_ok hpath with ⟨hk, p, rfl, hp, -⟩ | ⟨hk, rfl⟩
  · exact ⟨⟨haccepts, fun _ => ⟨p, hp⟩⟩, hpending, hfree, some p, rfl, fun q hq => ⟨hk, hq ▸ hp⟩⟩
  · exact ⟨⟨haccepts, fun h => absurd h hk⟩, hpending, hfree, none, rfl, nofun⟩

/-- What is staged is in order: a record stands under its own id, in one table only, and the
pending ids are those of the tables. -/
structure Sound (g : Staging) : Prop where
  keyed : ∀ k id r, g.get? k id = some r → r.id = id
  admitted : ∀ k id r, g.get? k id = some r → Admitted k r
  single : ∀ k j id r q, g.get? k id = some r → g.get? j id = some q → k = j
  listed : ∀ id, g.isPending id = true ↔ ∃ k r, g.get? k id = some r

namespace Sound

variable {s : Store} {g g' : Staging} {k : Kind} {r : PendingRecord} {id : ObjectId}

theorem isPending_eq_false (h : Sound g) : g.isPending id = false ↔ ∀ k, g.get? k id = none := by
  rw [← Bool.not_eq_true, h.listed]
  simp only [not_exists, Option.eq_none_iff_forall_ne_some, ne_eq]

theorem empty : Sound {} := by
  constructor
  · intro k id r h
    rw [get?_empty] at h
    cases h
  · intro k id r h
    rw [get?_empty] at h
    cases h
  · intro k j id r q h
    rw [get?_empty] at h
    cases h
  · intro id
    simp only [get?_empty, reduceCtorEq, exists_false, iff_false]
    exact Bool.false_ne_true

/-- A record that is staged now is the new one, or was staged before. -/
theorem of_get?_add (h : Sound g) (hpending : g.isPending r.id = false) {path : Option AssetPath}
    {j : Kind} {q : PendingRecord} (hq : (g.add k r path).get? j id = some q) :
    (k = j ∧ r.id = id ∧ r = q) ∨ (r.id ≠ id ∧ g.get? j id = some q) := by
  rw [get?_add] at hq
  split at hq
  · next hnew => exact Or.inl ⟨hnew.1, hnew.2, Option.some.inj hq⟩
  · refine Or.inr ⟨?_, hq⟩
    intro hsame
    subst hsame
    rw [h.isPending_eq_false.1 hpending j] at hq
    cases hq

theorem add (h : Sound g) (hadmitted : Admitted k r) (hpending : g.isPending r.id = false)
    (path : Option AssetPath) : Sound (g.add k r path) := by
  constructor
  · intro j id q hq
    rcases h.of_get?_add hpending hq with ⟨-, hid, rfl⟩ | ⟨-, hold⟩
    · exact hid
    · exact h.keyed j id q hold
  · intro j id q hq
    rcases h.of_get?_add hpending hq with ⟨rfl, -, rfl⟩ | ⟨-, hold⟩
    · exact hadmitted
    · exact h.admitted j id q hold
  · intro j i id q q' hq hq'
    rcases h.of_get?_add hpending hq with ⟨rfl, hid, -⟩ | ⟨hne, hold⟩
    · rcases h.of_get?_add hpending hq' with ⟨rfl, -, -⟩ | ⟨hne', -⟩
      · rfl
      · exact absurd hid hne'
    · rcases h.of_get?_add hpending hq' with ⟨-, hid, -⟩ | ⟨-, hold'⟩
      · exact absurd hid hne
      · exact h.single j i id q q' hold hold'
  · intro id
    rw [isPending_add, Bool.or_eq_true, decide_eq_true_iff, h.listed]
    constructor
    · rintro (rfl | ⟨j, q, hq⟩)
      · exact ⟨k, r, by rw [get?_add, if_pos ⟨rfl, rfl⟩]⟩
      · by_cases hnew : k = j ∧ r.id = id
        · exact ⟨j, r, by rw [get?_add, if_pos hnew]⟩
        · exact ⟨j, q, by rw [get?_add, if_neg hnew, hq]⟩
    · rintro ⟨j, q, hq⟩
      rcases h.of_get?_add hpending hq with ⟨-, hid, -⟩ | ⟨-, hold⟩
      · exact Or.inl hid
      · exact Or.inr ⟨j, q, hold⟩

theorem stage (h : Sound g) (hstage : g.stage s k r = .ok g') : Sound g' := by
  obtain ⟨hadmitted, hpending, -, path, rfl, -⟩ := stage_eq_ok hstage
  exact h.add hadmitted hpending path

theorem of_get?_take (h : Sound g) (hr : g.get? k r.id = some r) {j : Kind} {q : PendingRecord}
    (hq : (g.take k r).get? j id = some q) : r.id ≠ id ∧ g.get? j id = some q := by
  rw [get?_take] at hq
  split at hq
  · cases hq
  · next hne =>
    refine ⟨?_, hq⟩
    intro hsame
    subst hsame
    exact hne ⟨h.single k j _ r q hr hq, rfl⟩

theorem take (h : Sound g) (hr : g.get? k r.id = some r) : Sound (g.take k r) := by
  constructor
  · intro j id q hq
    exact h.keyed j id q (h.of_get?_take hr hq).2
  · intro j id q hq
    exact h.admitted j id q (h.of_get?_take hr hq).2
  · intro j i id q q' hq hq'
    exact h.single j i id q q' (h.of_get?_take hr hq).2 (h.of_get?_take hr hq').2
  · intro id
    rw [isPending_take, Bool.and_eq_true, Bool.not_eq_true', decide_eq_false_iff_not, h.listed]
    constructor
    · rintro ⟨hne, j, q, hq⟩
      exact ⟨j, q, by rw [get?_take, if_neg fun hsame => hne hsame.2, hq]⟩
    · rintro ⟨j, q, hq⟩
      obtain ⟨hne, hold⟩ := h.of_get?_take hr hq
      exact ⟨hne, j, q, hold⟩

end Sound

/-- How what is staged fits the store. -/
structure Fits (s : Store) (g : Staging) : Prop extends Sound g where
  fresh : ∀ k id r, g.get? k id = some r → ∀ j, s.contains j id = false
  paths : ∀ p id, g.paths.get? p = some id →
    ∃ r, g.get? .assetFolder id = some r ∧ r.assetPath? = some p

namespace Fits

variable {s : Store} {g g' : Staging}

theorem empty (s : Store) : Fits s {} where
  toSound := .empty
  fresh k id r h := by
    rw [get?_empty] at h
    cases h
  paths p id h := by cases h

theorem stage (h : Fits s g) {k : Kind} {r : PendingRecord} (hstage : g.stage s k r = .ok g') :
    Fits s g' := by
  obtain ⟨-, hpending, hfree, path, rfl, hpath⟩ := stage_eq_ok hstage
  rw [Store.containsAny_eq_false] at hfree
  refine ⟨h.toSound.stage hstage, ?_, ?_⟩
  · intro j id q hq i
    rcases h.of_get?_add hpending hq with ⟨-, rfl, -⟩ | ⟨-, hold⟩
    · exact hfree i
    · exact h.fresh j id q hold i
  · intro p id hid
    have hold : g.paths.get? p = some id →
        ∃ q, (g.add k r path).get? .assetFolder id = some q ∧ q.assetPath? = some p := by
      intro hp
      obtain ⟨q, hq, hqp⟩ := h.paths p id hp
      refine ⟨q, ?_, hqp⟩
      rw [get?_add, if_neg, hq]
      intro h'
      obtain ⟨-, rfl⟩ := h'
      rw [h.isPending_eq_false.1 hpending] at hq
      cases hq
    cases path with
    | none => exact hold hid
    | some p' =>
      obtain ⟨rfl, hp'⟩ := hpath p' rfl
      have hid : (g.paths.insert p' r.id).get? p = some id := hid
      rw [OrderedMap.get?_insert] at hid
      split at hid
      · next hp =>
        cases hid
        refine ⟨r, ?_, hp ▸ hp'⟩
        rw [get?_add, if_pos ⟨rfl, rfl⟩]
      · exact hold hid

/-- A record that is taken out while its entry is put into the index. -/
theorem commit (h : Fits s g) {k : Kind} {r : PendingRecord} (hr : g.get? k r.id = some r)
    {e : IndexEntry} (he : e.id = r.id) : Fits (s.insert k e) (g.take k r) := by
  refine ⟨h.toSound.take hr, ?_, ?_⟩
  · intro j id q hq i
    obtain ⟨hne, hold⟩ := h.of_get?_take hr hq
    rw [Store.contains_insert, h.fresh j id q hold i, he]
    simp [hne]
  · intro p id hid
    have hold : g.paths.get? p = some id ∧ r.assetPath? ≠ some p := by
      unfold take at hid
      dsimp only at hid
      split at hid
      · next p' hp' =>
        rw [OrderedMap.get?_erase] at hid
        split at hid
        · cases hid
        · next hne => exact ⟨hid, fun h => hne (Option.some.inj (hp'.symm.trans h))⟩
      · next hnone => exact ⟨hid, by simp [hnone]⟩
    obtain ⟨q, hq, hqp⟩ := h.paths p id hold.1
    refine ⟨q, ?_, hqp⟩
    rw [get?_take, if_neg, hq]
    intro h'
    obtain ⟨rfl, rfl⟩ := h'
    rw [hr] at hq
    cases hq
    exact hold.2 hqp

end Fits

end Staging

end AudioProject
