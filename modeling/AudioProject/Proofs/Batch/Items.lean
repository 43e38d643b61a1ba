import AudioProject.Proofs.Batch.Keys
import Mathlib.Data.List.Forall2

/-
  The records that a plan asks for. The entries of its tables are one list of items
  (`Plan.items`), whose records are built one after the other (`records_eq`). So each item gets a
  block of ids, as many as its form takes, behind those of the items before it (`records_eq_ok`).
-/

namespace AudioProject.Batch

variable {keys : Keys} {ids ids' : IdSupply}

/-! ## Items -/

/-- What a record is like besides its place. -/
inductive Form where
  | inFolder (c : ObjectClass) (name : String)
  | bus (name : String)
  | assetFolder (path : AssetPath)

namespace Form

/-- How many ids are minted for a record. -/
def width : Form → Nat
  | inFolder _ _ => 1
  | bus _ => 4
  | assetFolder _ => 1

/-- A new record below `above`. Asset folders have their place in their path. -/
def build (f : Form) (above : ObjectId) : IdSupply → PendingRecord × IdSupply :=
  match f with
  | inFolder c name => PendingRecord.inFolder c name above
  | bus name => PendingRecord.bus name above
  | assetFolder path => PendingRecord.assetFolder path

theorem width_pos (f : Form) : 0 < f.width := by cases f <;> simp [width]

theorem build_snd (f : Form) (above : ObjectId) (ids : IdSupply) :
    (f.build above ids).2 = { ids with issued := ids.issued + f.width } := by
  cases f <;> rfl

/-- The record itself gets the last of its ids. -/
theorem id_build (f : Form) (above : ObjectId) (nth : Nat → ObjectId) (n : Nat) :
    (f.build above ⟨nth, n⟩).1.id = nth (n + (f.width - 1)) := by
  cases f <;> rfl

theorem ids_siblings_build (f : Form) (above : ObjectId) (nth : Nat → ObjectId) (n : Nat) :
    (f.build above ⟨nth, n⟩).1.siblings.map Object.id =
      (List.range' n (f.width - 1)).map nth := by
  cases f <;> rfl

end Form

/-- An entry of a plan that makes a record. -/
structure Item where
  kind : Kind
  key? : Option String
  above? : Option String := none
  /-- What the record goes below if `above?` is missing. -/
  top : ObjectId
  form : Form

def NodeEntry.item (k : Kind) (top : ObjectId) (form : String → Form) (e : NodeEntry) : Item :=
  ⟨k, e.key?, e.above?, top, form e.name⟩

def PathEntry.item (top : ObjectId) (e : PathEntry) : Item :=
  ⟨.assetFolder, e.key?, none, top, .assetFolder e.path⟩

/-- The entries that make records, table after table. -/
def Plan.items (p : Plan) (s : Store) : List Item :=
  p.eventFolders.map (NodeEntry.item .eventFolder (s.root .eventFolder) (.inFolder .eventFolder)) ++
    p.bankFolders.map (NodeEntry.item .bank (s.root .bank) (.inFolder .bankFolder)) ++
    p.banks.map (NodeEntry.item .bank (s.root .bank) (.inFolder .bank)) ++
    p.buses.map (NodeEntry.item .bus (s.root .bus) .bus) ++
    p.assetFolders.map (PathEntry.item (s.root .assetFolder))

theorem Plan.length_items (p : Plan) (s : Store) : (p.items s).length = p.recordCount := by
  unfold Plan.items Plan.recordCount
  simp only [List.length_append, List.length_map]

/-- What has no reference goes below the root of its kind. -/
theorem Plan.top_of_mem_items {p : Plan} {s : Store} {x : Item} (h : x ∈ p.items s) :
    x.top = s.root x.kind := by
  unfold Plan.items at h
  simp only [List.mem_append, List.mem_map] at h
  rcases h with (((⟨e, -, rfl⟩ | ⟨e, -, rfl⟩) | ⟨e, -, rfl⟩) | ⟨e, -, rfl⟩) | ⟨e, -, rfl⟩ <;> rfl

namespace Item

def width (x : Item) : Nat := x.form.width

/-- The record of an item with its kind. -/
def make (keys : Keys) (x : Item) : Action IdSupply Error (Kind × PendingRecord) := do
  let above ← Action.reading fun _ => resolveOr keys x.top x.above?
  let r ← minting (x.form.build above)
  return (x.kind, keyed keys x.key? r)

/-- What an item makes of the ids from a number on. -/
def Makes (keys : Keys) (nth : Nat → ObjectId) (x : Item × Nat) (q : Kind × PendingRecord) : Prop :=
  ∃ above, NamesOr keys x.1.top x.1.above? above ∧
    q = (x.1.kind, keyed keys x.1.key? (x.1.form.build above ⟨nth, x.2⟩).1)

theorem make_eq_ok {x : Item} {q : Kind × PendingRecord} :
    x.make keys ids = .ok q ids' ↔
      Makes keys ids.nth (x, ids.issued) q ∧
        ids' = { ids with issued := ids.issued + x.width } := by
  unfold make
  rw [Action.bind_eq_ok]
  constructor
  · rintro ⟨above, _, hread, h⟩
    obtain ⟨habove, rfl⟩ := Action.reading_eq_ok.1 hread
    cases h
    exact ⟨⟨above, resolveOr_eq_ok.1 habove, rfl⟩, Form.build_snd _ _ _⟩
  · rintro ⟨⟨above, habove, rfl⟩, rfl⟩
    refine ⟨above, _, Action.reading_eq_ok.2 ⟨resolveOr_eq_ok.2 habove, rfl⟩, ?_⟩
    unfold Item.width
    rw [← Form.build_snd x.form above ids]
    rfl

/-- Items are built in turn, each with the ids that follow those before it. -/
theorem mapM_make_eq_ok {xs : List Item} {qs : List (Kind × PendingRecord)} :
    xs.mapM (make keys) ids = .ok qs ids' ↔
      List.Forall₂ (Makes keys ids.nth) (dealt width ids.issued xs) qs ∧
        ids' = { ids with issued := ids.issued + total width xs } := by
  induction xs generalizing ids qs with
  | nil =>
    rw [List.mapM_nil, dealt, List.forall₂_nil_left_iff]
    show EStateM.Result.ok [] ids = .ok qs ids' ↔ qs = [] ∧ ids' = ids
    rw [EStateM.Result.ok.injEq, eq_comm, @eq_comm _ ids]
  | cons x xs ih =>
    rw [List.mapM_cons, Action.bind_eq_ok, total, ← Nat.add_assoc]
    constructor
    · rintro ⟨q, _, hq, h⟩
      obtain ⟨hmakes, rfl⟩ := make_eq_ok.1 hq
      obtain ⟨_, _, hqs, h⟩ := Action.bind_eq_ok.1 h
      cases h
      obtain ⟨hall, hids⟩ := ih.1 hqs
      exact ⟨.cons hmakes hall, hids⟩
    · rintro ⟨hall, hids⟩
      cases hall with
      | cons hmakes hall =>
        exact ⟨_, _, make_eq_ok.2 ⟨hmakes, rfl⟩,
          Action.bind_eq_ok.2 ⟨_, _, ih.2 ⟨hall, hids⟩, rfl⟩⟩

/-- A table whose records are built as items are. -/
theorem mapM_item {α : Type} {k : Kind} {item : α → Item}
    {f : α → Action IdSupply Error PendingRecord}
    (h : ∀ e, (item e).make keys = do return (k, ← f e)) (es : List α) :
    (es.map item).mapM (make keys) = do return (← es.mapM f).map (k, ·) := by
  induction es with
  | nil => rfl
  | cons e es ih =>
    rw [List.map_cons, List.mapM_cons, List.mapM_cons, h, ih]
    simp only [bind_assoc, pure_bind, List.map_cons]

end Item

/-- The records of a plan are built item by item. -/
theorem records_eq (p : Plan) (keys : Keys) (s : Store) :
    records p keys s = (p.items s).mapM (Item.make keys) := by
  have hnode : ∀ (k : Kind) (top : ObjectId) (form : String → Form) (es : List NodeEntry),
      (es.map (NodeEntry.item k top form)).mapM (Item.make keys) = do
        return (← es.mapM (nodeRecord keys (fun name above => (form name).build above) top)).map
          (k, ·) := by
    intro k top form es
    refine Item.mapM_item (fun e => ?_) es
    unfold nodeRecord
    simp only [bind_assoc, pure_bind]
    rfl
  have hpath : ∀ (top : ObjectId) (es : List PathEntry),
      (es.map (PathEntry.item top)).mapM (Item.make keys) = do
        return (← es.mapM (pathRecord keys)).map (Kind.assetFolder, ·) := by
    intro top es
    refine Item.mapM_item (fun e => ?_) es
    rfl
  unfold Plan.items
  rw [List.mapM_append, List.mapM_append, List.mapM_append, List.mapM_append, hnode, hnode, hnode,
    hnode, hpath]
  simp only [bind_assoc, pure_bind]
  rfl

theorem records_eq_ok {p : Plan} {s : Store} {qs : List (Kind × PendingRecord)} :
    records p keys s ids = .ok qs ids' ↔
      List.Forall₂ (Item.Makes keys ids.nth) (dealt Item.width ids.issued (p.items s)) qs ∧
        ids' = { ids with issued := ids.issued + total Item.width (p.items s) } := by
  rw [records_eq]
  exact Item.mapM_make_eq_ok

end AudioProject.Batch
