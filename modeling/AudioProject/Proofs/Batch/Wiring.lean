import AudioProject.Proofs.Batch.Items
import AudioProject.Proofs.Batch.Tables
import AudioProject.Proofs.EventGraph.Ids
import AudioProject.Proofs.Store.Loading

/-
  How the records of a plan are connected. The keys have the first ids that are minted, and the
  records are made of those that follow (`Built`). Each record stands for its entry, below what the
  entry refers to (`Wired`). It is built with ids of its own and then gets that of its key, so each
  id still stands for one object where no id is minted twice (`Distinct`).
-/

namespace AudioProject

theorem IdSupply.nth_inj {ids ids' : IdSupply} (h : (ids.minted ids').Nodup) {i j : Nat}
    (hi : ids.issued ≤ i ∧ i < ids'.issued) (hj : ids.issued ≤ j ∧ j < ids'.issued)
    (heq : ids.nth i = ids.nth j) : i = j :=
  List.inj_on_of_nodup_map h (List.mem_range'_1.2 (by omega)) (List.mem_range'_1.2 (by omega)) heq

namespace Batch

variable {p : Plan} {s : Store} {ids ids₁ ids₂ : IdSupply} {keys : Keys}
  {qs : List (Kind × PendingRecord)} {g : Staging} {id : ObjectId}

/-! ## Keys and records -/

/-- The keys of a plan and its records, as they are made of the ids of a supply. -/
structure Built (p : Plan) (s : Store) (ids : IdSupply) (keys : Keys)
    (qs : List (Kind × PendingRecord)) : Prop where
  once : p.keys.Nodup
  minted : keys.toList = withIds ids p.keys
  makes : List.Forall₂ (Item.Makes keys ids.nth)
    (dealt Item.width (ids.issued + p.keys.length) (p.items s)) qs

/-- What a supply has left after the keys of a plan. -/
def Plan.afterKeys (p : Plan) (ids : IdSupply) : IdSupply :=
  { ids with issued := ids.issued + p.keys.length }

/-- Keys get the first ids that are minted. -/
theorem Plan.map_snd_withIds (p : Plan) (ids : IdSupply) :
    (withIds ids p.keys).map Prod.snd = ids.minted (p.afterKeys ids) := by
  unfold withIds IdSupply.minted Plan.afterKeys
  rw [List.map_map, Nat.add_sub_cancel_left, ← map_snd_dealt_one, List.map_map]
  rfl

/-- What it has left after the records. -/
def Plan.afterRecords (p : Plan) (s : Store) (ids : IdSupply) : IdSupply :=
  { ids with issued := ids.issued + p.keys.length + total Item.width (p.items s) }

theorem stages_iff :
    mintKeys ∅ p.keys ids = .ok keys ids₁ ∧ stagePlan p keys s ids₁ = .ok g ids₂ ↔
      ∃ qs, Built p s ids keys qs ∧ Stageable s qs ∧ g = stagedOf {} qs ∧
        ids₁ = p.afterKeys ids ∧ ids₂ = p.afterRecords s ids := by
  rw [mintKeys_empty_eq_ok]
  constructor
  · rintro ⟨⟨honce, hkeys, rfl⟩, hstage⟩
    obtain ⟨qs, _, hrecords, hread⟩ := Action.bind_eq_ok.1 hstage
    obtain ⟨hmakes, rfl⟩ := records_eq_ok.1 hrecords
    obtain ⟨hall, rfl⟩ := Action.reading_eq_ok.1 hread
    obtain ⟨hstageable, rfl⟩ := stageAll_empty_eq_ok.1 hall
    exact ⟨qs, ⟨honce, hkeys, hmakes⟩, hstageable, rfl, rfl, rfl⟩
  · rintro ⟨qs, hbuilt, hstageable, rfl, rfl, rfl⟩
    refine ⟨⟨hbuilt.once, hbuilt.minted, rfl⟩,
      Action.bind_eq_ok.2 ⟨qs, p.afterRecords s ids, ?_, ?_⟩⟩
    · exact records_eq_ok.2 ⟨hbuilt.makes, rfl⟩
    · exact Action.reading_eq_ok.2 ⟨stageAll_empty_eq_ok.2 ⟨hstageable, rfl⟩, rfl⟩

/-! ## Ids -/

theorem Plan.keys_eq (p : Plan) (s : Store) :
    p.keys = (p.items s).filterMap (·.key?) ++ p.events.filterMap (·.key?) := by
  unfold Plan.keys Plan.items
  simp only [List.filterMap_append, List.filterMap_map]
  rfl

/-- The ids of the objects that an item makes. -/
def Item.objectIds (keys : Keys) (nth : Nat → ObjectId) (x : Item × Nat) : List ObjectId :=
  (x.1.key?.bind keys.get?).getD (nth (x.2 + (x.1.width - 1))) ::
    (List.range' x.2 (x.1.width - 1)).map nth

theorem Item.Makes.map_objects {nth : Nat → ObjectId} {x : Item × Nat} {q : Kind × PendingRecord}
    (h : Makes keys nth x q) : q.2.objects.map Object.id = Item.objectIds keys nth x := by
  obtain ⟨above, -, rfl⟩ := h
  unfold Item.objectIds Item.width keyed PendingRecord.objects
  rw [← Form.ids_siblings_build x.1.form above]
  cases x.1.key?.bind keys.get? with
  | none => exact congrArg (· :: _) (Form.id_build x.1.form above nth x.2)
  | some id => rfl

theorem flatMap_objectIds {nth : Nat → ObjectId} {xs : List (Item × Nat)}
    (h : List.Forall₂ (Item.Makes keys nth) xs qs) :
    qs.flatMap (fun q => q.2.objects.map Object.id) = xs.flatMap (Item.objectIds keys nth) := by
  induction h with
  | nil => rfl
  | cons hmakes _ ih => rw [List.flatMap_cons, List.flatMap_cons, ih, hmakes.map_objects]

/-- An id of an item is that of its key, or one of those that were minted for it. -/
theorem Item.mem_objectIds {nth : Nat → ObjectId} {x : Item × Nat}
    (h : id ∈ Item.objectIds keys nth x) :
    (∃ key, x.1.key? = some key ∧ keys.get? key = some id) ∨
      ∃ i, x.2 ≤ i ∧ i < x.2 + x.1.width ∧ nth i = id := by
  have hpos := x.1.form.width_pos
  rcases List.mem_cons.1 h with rfl | h
  · cases hkey : x.1.key?.bind keys.get? with
    | some id =>
      obtain ⟨key, hkey, hid⟩ := Option.bind_eq_some_iff.1 hkey
      exact Or.inl ⟨key, hkey, hid⟩
    | none => exact Or.inr ⟨_, Nat.le_add_right _ _, by unfold Item.width; omega, rfl⟩
  · obtain ⟨i, hi, rfl⟩ := List.mem_map.1 h
    rw [List.mem_range'_1] at hi
    exact Or.inr ⟨i, hi.1, by omega, rfl⟩

/-- The ids that are minted for an item. -/
theorem bounds_of_mem_items {x : Item × Nat}
    (hx : x ∈ dealt Item.width (ids.issued + p.keys.length) (p.items s)) {i : Nat} (hlow : x.2 ≤ i)
    (hhigh : i < x.2 + x.1.width) :
    ids.issued + p.keys.length ≤ i ∧ i < (p.afterRecords s ids).issued := by
  obtain ⟨hfirst, hlast⟩ := bounds_of_mem_dealt hx
  exact ⟨by omega, Nat.lt_of_lt_of_le hhigh hlast⟩

namespace Built

variable (h : Built p s ids keys qs)

include h

theorem keys_eq : keys.keys = p.keys := by
  unfold OrderedMap.keys
  rw [h.minted, map_fst_withIds]

theorem values_eq : keys.values = ids.minted (p.afterKeys ids) := by
  unfold OrderedMap.values
  rw [h.minted, p.map_snd_withIds]

/-- The ids of the records are others. -/
theorem not_mem_values (hnew : (ids.minted (p.afterRecords s ids)).Nodup) {i : Nat}
    (hlow : ids.issued + p.keys.length ≤ i) (hhigh : i < (p.afterRecords s ids).issued) :
    ids.nth i ∉ keys.values := by
  rw [h.values_eq]
  intro hmem
  obtain ⟨j, hj, hj', heq⟩ := IdSupply.mem_minted.1 hmem
  have hj' : j < ids.issued + p.keys.length := hj'
  have := IdSupply.nth_inj hnew ⟨hj, by omega⟩ ⟨by omega, hhigh⟩ heq
  omega

/-- Items have different keys. -/
theorem pairwise_keys (n : Nat) : (dealt Item.width n (p.items s)).Pairwise fun x y =>
    ∀ key ∈ x.1.key?, key ∉ y.1.key? := by
  have honce := h.once
  rw [Plan.keys_eq p s] at honce
  have hpairwise := List.pairwise_filterMap.1 (List.nodup_append.1 honce).1
  rw [← map_fst_dealt Item.width n (p.items s), List.pairwise_map] at hpairwise
  exact hpairwise.imp fun hne key hx hy => hne key hx key hy rfl

theorem nodup_values (hnew : (ids.minted (p.afterRecords s ids)).Nodup) : keys.values.Nodup := by
  have hkeys : ids.Precedes (p.afterKeys ids) := ⟨rfl, Nat.le_add_right _ _⟩
  have hrecords : (p.afterKeys ids).Precedes (p.afterRecords s ids) := ⟨rfl, Nat.le_add_right _ _⟩
  rw [IdSupply.minted_append hkeys hrecords] at hnew
  rw [h.values_eq]
  exact (List.nodup_append.1 hnew).1

/-- The objects of one item have different ids. -/
theorem nodup_objectIds_of_mem (hnew : (ids.minted (p.afterRecords s ids)).Nodup)
    {x : Item × Nat} (hx : x ∈ dealt Item.width (ids.issued + p.keys.length) (p.items s)) :
    (Item.objectIds keys ids.nth x).Nodup := by
  have hinj : ∀ i j, x.2 ≤ i ∧ i < x.2 + x.1.width → x.2 ≤ j ∧ j < x.2 + x.1.width →
      ids.nth i = ids.nth j → i = j := by
    intro i j hi hj heq
    obtain ⟨hlow, hhigh⟩ := bounds_of_mem_items hx hi.1 hi.2
    obtain ⟨hlow', hhigh'⟩ := bounds_of_mem_items hx hj.1 hj.2
    exact IdSupply.nth_inj hnew ⟨by omega, hhigh⟩ ⟨by omega, hhigh'⟩ heq
  refine List.nodup_cons.2 ⟨fun hmem => ?_, List.Nodup.map_on ?_ List.nodup_range'⟩
  · obtain ⟨i, hi, heq⟩ := List.mem_map.1 hmem
    rw [List.mem_range'_1] at hi
    cases hkey : x.1.key?.bind keys.get? with
    | some id =>
      obtain ⟨key, -, hid⟩ := Option.bind_eq_some_iff.1 hkey
      obtain ⟨hlow, hhigh⟩ := bounds_of_mem_items hx hi.1 (by omega)
      rw [hkey] at heq
      exact h.not_mem_values hnew hlow hhigh (heq ▸ OrderedMap.mem_values_of_get? hid)
    | none =>
      rw [hkey] at heq
      have := hinj i _ ⟨hi.1, by omega⟩ ⟨by omega, by omega⟩ heq
      omega
  · intro i hi j hj heq
    rw [List.mem_range'_1] at hi hj
    exact hinj i j ⟨hi.1, by omega⟩ ⟨hj.1, by omega⟩ heq

/-- Items with different keys and blocks share no id. -/
theorem disjoint_objectIds (hnew : (ids.minted (p.afterRecords s ids)).Nodup) {x y : Item × Nat}
    (hx : x ∈ dealt Item.width (ids.issued + p.keys.length) (p.items s))
    (hy : y ∈ dealt Item.width (ids.issued + p.keys.length) (p.items s))
    (hkeys : ∀ key ∈ x.1.key?, key ∉ y.1.key?) (hblocks : x.2 + x.1.width ≤ y.2) :
    List.Disjoint (Item.objectIds keys ids.nth x) (Item.objectIds keys ids.nth y) := by
  intro id hmem hmem'
  rcases Item.mem_objectIds hmem with ⟨key, hkey, hid⟩ | ⟨i, hlow, hhigh, rfl⟩
  · rcases Item.mem_objectIds hmem' with ⟨key', hkey', hid'⟩ | ⟨j, hlow', hhigh', rfl⟩
    · obtain rfl := OrderedMap.eq_of_get?_of_nodup_values (h.nodup_values hnew) hid hid'
      exact hkeys key hkey hkey'
    · obtain ⟨hj, hj'⟩ := bounds_of_mem_items hy hlow' hhigh'
      exact h.not_mem_values hnew hj hj' (OrderedMap.mem_values_of_get? hid)
  · obtain ⟨hi, hi'⟩ := bounds_of_mem_items hx hlow hhigh
    rcases Item.mem_objectIds hmem' with ⟨key', -, hid'⟩ | ⟨j, hlow', hhigh', heq⟩
    · exact h.not_mem_values hnew hi hi' (OrderedMap.mem_values_of_get? hid')
    · obtain ⟨hj, hj'⟩ := bounds_of_mem_items hy hlow' hhigh'
      have := IdSupply.nth_inj hnew ⟨by omega, hj'⟩ ⟨by omega, hi'⟩ heq
      omega

/-- Each id stands for one object. -/
theorem nodup_objectIds (hnew : (ids.minted (p.afterRecords s ids)).Nodup) :
    (qs.flatMap fun q => q.2.objects.map Object.id).Nodup := by
  rw [flatMap_objectIds h.makes, List.nodup_flatMap]
  exact ⟨fun x => h.nodup_objectIds_of_mem hnew,
    ((h.pairwise_keys _).and (pairwise_dealt _ _ _)).imp_of_mem fun hx hy hxy =>
      h.disjoint_objectIds hnew hx hy hxy.1 hxy.2⟩

end Built

/-! ## Entries and their records -/

/-- What the object of an item looks like below `above`. -/
def Form.Shows (f : Form) (above : ObjectId) (o : Object) : Prop :=
  match f with
  | inFolder c name => o.objectClass = c ∧ o.name? = some name ∧ o.edge "folder" = [above]
  | bus name => o.objectClass = .mixerGroup ∧ o.name? = some name ∧ o.edge "output" = [above]
  | assetFolder path => o.objectClass = .assetFolder ∧ o.property? "assetPath" = some path.text

theorem Form.shows_build (f : Form) (above : ObjectId) (ids : IdSupply) :
    f.Shows above (f.build above ids).1.object := by
  cases f <;> simp [Shows, build, PendingRecord.inFolder, PendingRecord.bus,
    PendingRecord.assetFolder, Object.name?, Object.property?, Object.edge, Object.setProperty,
    Object.setEdge]

theorem Item.Makes.kind {nth : Nat → ObjectId} {x : Item × Nat} {q : Kind × PendingRecord}
    (h : Makes keys nth x q) : q.1 = x.1.kind := by
  obtain ⟨_, -, rfl⟩ := h
  rfl

theorem Item.Makes.shows {nth : Nat → ObjectId} {x : Item × Nat} {q : Kind × PendingRecord}
    (h : Makes keys nth x q) :
    ∃ above, NamesOr keys x.1.top x.1.above? above ∧ x.1.form.Shows above q.2.object := by
  obtain ⟨above, habove, rfl⟩ := h
  refine ⟨above, habove, ?_⟩
  have hbuild := x.1.form.shows_build above ⟨nth, x.2⟩
  unfold keyed
  -- what a form looks like has nothing to do with the id
  cases x.1.key?.bind keys.get? with
  | none => exact hbuild
  | some id =>
    generalize (x.1.form.build above ⟨nth, x.2⟩).1 = r at hbuild
    cases hform : x.1.form <;> rw [hform] at hbuild <;> exact hbuild

/-- A record stands for an entry: it has the id of the entry's key, and leads to what the entry
refers to. -/
structure Stands (keys : Keys) (x : Item) (r : PendingRecord) : Prop where
  keyed : ∀ key, x.key? = some key → keys.get? key = some r.id
  shows : ∃ above, NamesOr keys x.top x.above? above ∧ x.form.Shows above r.object

/-- Every entry of a plan has its record, in the order of the plan, and nothing else is staged. -/
structure Wired (p : Plan) (s : Store) (keys : Keys) (g : Staging) : Prop where
  size : g.size = p.recordCount
  stands : ∀ k, List.Forall₂ (Stands keys) ((p.items s).filter fun x => x.kind = k)
    (g.table k).values

/-- Keys have no id of a record for an entry without a key, and none of an object beside one. -/
structure Apart (keys : Keys) (x : Item) (r : PendingRecord) : Prop where
  unkeyed : x.key? = none → r.id ∉ keys.values
  siblings : ∀ o ∈ r.siblings, o.id ∉ keys.values

/-- All ids are different, those of keys and those of records. -/
structure Distinct (p : Plan) (s : Store) (keys : Keys) (g : Staging) : Prop where
  values : keys.values.Nodup
  apart : ∀ k, List.Forall₂ (Apart keys) ((p.items s).filter fun x => x.kind = k)
    (g.table k).values
  /-- No two objects share an id, be they in one record or in two. -/
  objects : (Kind.all.flatMap fun k =>
    (g.table k).values.flatMap fun r => r.objects.map Object.id).Nodup

namespace Built

variable (h : Built p s ids keys qs)

include h

/-- What holds of each item and the record it makes holds of the entries and what is staged. -/
theorem forall₂_values (hstageable : Stageable s qs) {R : Item → PendingRecord → Prop}
    (hR : ∀ x ∈ dealt Item.width (ids.issued + p.keys.length) (p.items s),
      ∀ q, Item.Makes keys ids.nth x q → R x.1 q.2) (k : Kind) :
    List.Forall₂ R ((p.items s).filter fun x => x.kind = k) ((stagedOf {} qs).table k).values := by
  have hall : List.Forall₂ (fun x q => q.1 = x.kind ∧ R x q.2) (p.items s) qs := by
    rw [← map_fst_dealt Item.width (ids.issued + p.keys.length) (p.items s),
      List.forall₂_map_left_iff]
    refine ((List.forall₂_and_left _ _).2 ⟨fun _ hx => hx, h.makes⟩).imp fun x q hxq => ?_
    exact ⟨hxq.2.kind, hR x hxq.1 q hxq.2⟩
  rw [hstageable.values_table, List.forall₂_map_right_iff]
  refine (List.rel_filter ?_ hall).imp fun x q hxq => hxq.2
  intro x q hxq
  simp [hxq.1]

theorem stands {x : Item × Nat} {q : Kind × PendingRecord}
    (hx : x ∈ dealt Item.width (ids.issued + p.keys.length) (p.items s))
    (hmakes : Item.Makes keys ids.nth x q) : Stands keys x.1 q.2 := by
  refine ⟨fun key hkey => ?_, hmakes.shows⟩
  have hmem : key ∈ keys.keys := by
    rw [h.keys_eq, Plan.keys_eq p s]
    refine List.mem_append_left _ (List.mem_filterMap.2 ⟨x.1, ?_, hkey⟩)
    exact map_fst_dealt _ _ (p.items s) ▸ List.mem_map_of_mem hx
  obtain ⟨id, hget⟩ := (OrderedMap.mem_keys_iff _ _).1 hmem
  obtain ⟨hid, -⟩ := List.cons.inj hmakes.map_objects
  rw [hkey, Option.bind_some, hget, Option.getD_some] at hid
  rw [hget]
  exact congrArg some hid.symm

theorem apart (hnew : (ids.minted (p.afterRecords s ids)).Nodup) {x : Item × Nat}
    {q : Kind × PendingRecord}
    (hx : x ∈ dealt Item.width (ids.issued + p.keys.length) (p.items s))
    (hmakes : Item.Makes keys ids.nth x q) : Apart keys x.1 q.2 := by
  have hpos : 0 < x.1.width := x.1.form.width_pos
  obtain ⟨hid, hsiblings⟩ := List.cons.inj hmakes.map_objects
  have hother : ∀ i, x.2 ≤ i → i < x.2 + x.1.width → ids.nth i ∉ keys.values := by
    intro i hlow hhigh
    obtain ⟨hi, hi'⟩ := bounds_of_mem_items hx hlow hhigh
    exact h.not_mem_values hnew hi hi'
  refine ⟨fun hkey => ?_, fun o ho => ?_⟩
  · rw [hkey, Option.bind_none, Option.getD_none] at hid
    rw [PendingRecord.id, hid]
    exact hother _ (Nat.le_add_right _ _) (by omega)
  · have hmem : o.id ∈ q.2.siblings.map Object.id := List.mem_map_of_mem ho
    rw [hsiblings] at hmem
    obtain ⟨i, hi, heq⟩ := List.mem_map.1 hmem
    rw [List.mem_range'_1] at hi
    rw [← heq]
    exact hother i hi.1 (by omega)

theorem wired (hstageable : Stageable s qs) : Wired p s keys (stagedOf {} qs) where
  size := by
    have hlength := congrArg List.length
      (map_fst_dealt Item.width (ids.issued + p.keys.length) (p.items s))
    rw [List.length_map, Plan.length_items] at hlength
    rw [hstageable.size, ← h.makes.length_eq, hlength]
  stands := h.forall₂_values hstageable fun _ hx _ => h.stands hx

end Built

/-- Kind by kind there are the same records. -/
theorem perm_flatMap_filter (qs : List (Kind × PendingRecord)) :
    (Kind.all.flatMap fun k => qs.filter fun q => q.1 = k).Perm qs := by
  simp only [Kind.all, List.flatMap_cons, List.flatMap_nil, List.append_nil]
  induction qs with
  | nil => exact .refl _
  | cons q qs ih =>
    obtain ⟨k, r⟩ := q
    refine List.Perm.trans ?_ (ih.cons (k, r))
    cases k
    · exact .refl _
    · exact List.perm_middle
    · exact (List.perm_middle.append_left _).trans List.perm_middle
    · exact ((List.perm_middle.append_left _).append_left _).trans
        ((List.perm_middle.append_left _).trans List.perm_middle)

theorem Built.distinct (h : Built p s ids keys qs) (hstageable : Stageable s qs)
    (hnew : (ids.minted (p.afterRecords s ids)).Nodup) : Distinct p s keys (stagedOf {} qs) where
  values := h.nodup_values hnew
  apart := h.forall₂_values hstageable fun _ hx _ => h.apart hnew hx
  objects := by
    simp only [hstageable.values_table, List.flatMap_map]
    rw [← List.flatMap_assoc]
    exact ((perm_flatMap_filter qs).flatMap_right _).nodup_iff.2 (h.nodup_objectIds hnew)

/-! ## Events -/

/-- The request for an event names what the entry refers to, as a record does. -/
structure Asks (keys : Keys) (dir : Path) (e : EventEntry) (r : Instantiation.Request) : Prop where
  template : Names keys e.template r.template
  folder : Names keys e.folder r.folder
  bank : Names keys e.bank r.bank
  bus : Names keys e.bus r.bus
  id : r.eventId? = e.key?.bind keys.get?
  name : r.name = e.name
  media : e.media.mapM (media dir e.name) = .ok r.media

theorem request_eq_ok {dir : Path} {e : EventEntry} {r : Instantiation.Request} :
    request keys dir e = .ok r ↔ Asks keys dir e r := by
  unfold request
  constructor
  · intro h
    obtain ⟨template, htemplate, h⟩ := bind_eq_ok.1 h
    obtain ⟨folder, hfolder, h⟩ := bind_eq_ok.1 h
    obtain ⟨bank, hbank, h⟩ := bind_eq_ok.1 h
    obtain ⟨bus, hbus, h⟩ := bind_eq_ok.1 h
    obtain ⟨media, hmedia, h⟩ := bind_eq_ok.1 h
    cases h
    exact ⟨resolve_eq_ok.1 htemplate, resolve_eq_ok.1 hfolder, resolve_eq_ok.1 hbank,
      resolve_eq_ok.1 hbus, rfl, rfl, hmedia⟩
  · intro h
    obtain ⟨template, eventId?, name, folder, bank, bus, media⟩ := r
    obtain ⟨htemplate, hfolder, hbank, hbus, rfl, rfl, hmedia⟩ := h
    rw [resolve_eq_ok.2 htemplate, ok_bind, resolve_eq_ok.2 hfolder, ok_bind,
      resolve_eq_ok.2 hbank, ok_bind, resolve_eq_ok.2 hbus, ok_bind, hmedia, ok_bind]
    rfl

theorem requests_eq_ok {dir : Path} {rs : List Instantiation.Request} :
    requests p keys dir = .ok rs ↔ List.Forall₂ (Asks keys dir) p.events rs := by
  unfold requests
  rw [mapM_eq_ok_iff]
  constructor
  · intro h
    exact h.imp fun _ _ => request_eq_ok.1
  · intro h
    exact h.imp fun _ _ => request_eq_ok.2

end Batch

end AudioProject
