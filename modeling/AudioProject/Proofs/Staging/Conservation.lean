import AudioProject.Proofs.Staging.Steps
import Mathlib.Logic.Basic

/-
  No record is lost by a commit, and none is committed twice. Each step moves one entry from the
  pending ones to the end of the index, so the two together stay the same (`perm_entriesWith`);
  a record that was written stays in the index and on disk (`record_of_steps`); and what is
  still pending is what is in no index (`table_of_steps`).
-/

namespace AudioProject

open FileTree Session

/-! ## One step -/

namespace Session

/-- The entry of a record is in the index, and its document on disk. -/
structure Committed (x : Session) (k : Kind) (r : PendingRecord) : Prop where
  entry : ∃ e, IndexEntry.ofObject? k r.object = some e ∧ x.store.lookup? k r.id = some e
  document : ∃ path, x.store.layout.objectPath? r.object.objectClass r.id = some path ∧
    x.host.files.read path = .ok (x.store.documentBytes r.objects)

theorem Committed.contains {x : Session} {k : Kind} {r : PendingRecord} (h : Committed x k r) :
    x.store.contains k r.id = true := by
  obtain ⟨e, -, he⟩ := h.entry
  rw [Store.contains_eq, he]
  rfl

variable {x y : Session} {k j : Kind} {r q : PendingRecord}

theorem Wrote.committed (h : Wrote k r x y) : Committed y k r := by
  obtain ⟨e, he, hstore⟩ := h.entry
  obtain ⟨path, hpath, hread⟩ := h.document
  refine ⟨⟨e, he, ?_⟩, path, ?_, ?_⟩
  · rw [hstore, Store.lookup?_insert, if_pos ⟨rfl, IndexEntry.id_ofObject? he⟩]
  · rw [hstore]
    exact hpath
  · rw [hstore]
    exact hread

/-- A document stays readable where the places of other documents are kept. -/
theorem Committed.keeps {P : Location → Prop} (h : Committed x k r)
    (hkeeps : Keeps P x.host.files y.host.files)
    (hP : ∀ l, l.getLast? = some r.id.fileName → P l) :
    ∃ path, x.store.layout.objectPath? r.object.objectClass r.id = some path ∧
      y.host.files.read path = .ok (x.store.documentBytes r.objects) := by
  obtain ⟨path, hpath, hread⟩ := h.document
  obtain ⟨l, hl, -⟩ := read_eq_ok.1 hread
  exact ⟨path, hpath, hkeeps.read hl (hP l (Store.getLast?_objectPath hpath hl)) hread⟩

theorem Committed.idle (h : Committed x k r) (hidle : Idle x y) : Committed y k r := by
  refine ⟨?_, ?_⟩
  · rw [hidle.store]
    exact h.entry
  · rw [hidle.store]
    exact h.keeps hidle.documents fun _ => isSettled_of_fileName

/-- A record stays committed while one with another id is written. -/
theorem Committed.wrote (h : Committed x k r) (hwrote : Wrote j q x y) (hne : q.id ≠ r.id) :
    Committed y k r := by
  obtain ⟨e, he, hlookup⟩ := h.entry
  obtain ⟨e', he', hstore⟩ := hwrote.entry
  have hid : e'.id ≠ r.id := IndexEntry.id_ofObject? he' ▸ hne
  refine ⟨⟨e, he, ?_⟩, ?_⟩
  · rw [hstore, Store.lookup?_insert, if_neg fun hj => hid hj.2, hlookup]
  · rw [hstore]
    refine h.keeps hwrote.others fun l hl => ⟨isSettled_of_fileName hl, fun hq => hne ?_⟩
    exact ObjectId.fileName_inj (Option.some.inj (hq.symm.trans hl))

end Session

/-! ## A sequence of steps -/

namespace Staging

variable {x y : Session}

/-- A record that was pending is pending still, or it was committed. -/
theorem record_of_steps (h : Steps x y) (hfits : Fits x.store x.staging) {k : Kind}
    {id : ObjectId} {r : PendingRecord} (hr : x.staging.get? k id = some r) :
    y.staging.get? k id = some r ∨ y.staging.get? k id = none ∧ Committed y k r := by
  have hid := hfits.keyed k id r hr
  subst hid
  induction h with
  | refl => exact Or.inl hr
  | idle _ last ih =>
    rw [last.staging]
    rcases ih with hpending | ⟨hnone, hcommitted⟩
    · exact Or.inl hpending
    · exact Or.inr ⟨hnone, hcommitted.idle last⟩
  | @write y z j q before last ih =>
    have hfits' := Commit.fits_of_steps before hfits
    rw [last.staging, get?_take]
    rcases ih with hpending | ⟨hnone, hcommitted⟩
    · by_cases hq : j = k ∧ q.id = r.id
      · obtain ⟨rfl, hid⟩ := hq
        have hsame : q = r := by
          have hq := last.pending
          rw [hid, hpending] at hq
          exact (Option.some.inj hq).symm
        subst hsame
        rw [if_pos ⟨rfl, rfl⟩]
        exact Or.inr ⟨rfl, last.committed⟩
      · rw [if_neg hq]
        exact Or.inl hpending
    · have hne : q.id ≠ r.id := by
        intro hid
        have hfresh := hfits'.fresh j q.id q last.pending k
        rw [hid, hcommitted.contains] at hfresh
        cases hfresh
      rw [if_neg fun hq => hne hq.2]
      exact Or.inr ⟨hnone, hcommitted.wrote last hne⟩

/-- What is still pending is what is in no index, in the order it was staged. -/
theorem table_of_steps (h : Steps x y) (hfits : Fits x.store x.staging) (k : Kind) :
    (y.staging.table k).toList =
      (x.staging.table k).toList.filter fun e => !y.store.contains k e.1 := by
  induction h with
  | refl =>
    symm
    rw [List.filter_eq_self]
    intro e he
    rw [hfits.fresh k e.1 e.2 ((get?_eq_some_iff _ _ _ _).2 he) k]
    rfl
  | idle _ last ih =>
    rw [last.staging, last.store]
    exact ih
  | @write y z j q before last ih =>
    obtain ⟨e', he', hstore⟩ := last.entry
    have hid : e'.id = q.id := IndexEntry.id_ofObject? he'
    rw [last.staging, hstore, table_take]
    by_cases hj : j = k
    · subst hj
      rw [if_pos rfl, OrderedMap.toList_erase, ih, List.filter_filter]
      refine List.filter_congr fun e _ => ?_
      rw [Store.contains_insert, hid]
      by_cases he : q.id = e.1
      · simp [he]
      · simp [he, Ne.symm he]
    · rw [if_neg hj, ih]
      refine List.filter_congr fun e _ => ?_
      rw [Store.contains_insert]
      simp [hj]

/-- What was not pending is looked up as before. -/
theorem lookup?_of_steps (h : Steps x y) (hfits : Fits x.store x.staging) {k : Kind}
    {id : ObjectId} (hnone : x.staging.get? k id = none) :
    y.store.lookup? k id = x.store.lookup? k id := by
  have hstays : ∀ {y}, Steps x y → y.staging.get? k id = none := by
    intro y h
    cases hy : y.staging.get? k id with
    | none => rfl
    | some r =>
      have hmem := (get?_eq_some_iff _ _ _ _).1 hy
      rw [table_of_steps h hfits, List.mem_filter] at hmem
      rw [(get?_eq_some_iff _ _ _ _).2 hmem.1] at hnone
      cases hnone
  induction h with
  | refl => rfl
  | idle _ last ih =>
    rw [last.store]
    exact ih
  | @write y z j q before last ih =>
    obtain ⟨e', he', hstore⟩ := last.entry
    rw [hstore, Store.lookup?_insert, if_neg, ih]
    intro h'
    obtain ⟨rfl, hid⟩ := h'
    have hpending := last.pending
    rw [show q.id = id from (IndexEntry.id_ofObject? he').symm.trans hid, hstays before] at hpending
    cases hpending

end Staging

/-! ## The index and the staging together -/

/-- An entry may come from the pending ones or stand behind those of the index, as long as no
other pending one has its id. -/
theorem Store.perm_moved {os front back : List IndexEntry} {e : IndexEntry}
    (hother : ∀ e' ∈ front ++ back, e'.id ≠ e.id) :
    (OrderedMap.ofList (((os ++ [e]) ++ (front ++ back)).map fun e => (e.id, e))).values.Perm
      (OrderedMap.ofList ((os ++ (front ++ e :: back)).map fun e => (e.id, e))).values := by
  refine OrderedMap.perm_values fun id => ?_
  simp only [List.map_append, List.map_cons, List.map_nil, OrderedMap.get?_ofList_append,
    OrderedMap.get?_ofList_cons, OrderedMap.get?_ofList_nil]
  by_cases hid : e.id = id
  · subst hid
    have hnone : ∀ es : List IndexEntry, (∀ e' ∈ es, e'.id ≠ e.id) →
        (OrderedMap.ofList (es.map fun e => (e.id, e))).get? e.id = none := by
      intro es hes
      refine OrderedMap.get?_ofList_eq_none ?_
      intro _ hp
      obtain ⟨e', he', rfl⟩ := List.mem_map.1 hp
      exact hes e' he'
    rw [hnone front fun e' he' => hother e' (List.mem_append_left _ he'),
      hnone back fun e' he' => hother e' (List.mem_append_right _ he'), if_pos rfl]
    rfl
  · rw [if_neg hid]
    simp [Option.or_assoc]

theorem Store.entries_insert {s : Store} {k : Kind} {e : IndexEntry}
    (hnew : s.contains k e.id = false) (j : Kind) :
    (s.insert k e).entries j = if k = j then s.entries j ++ [e] else s.entries j := by
  unfold entries index insert
  rw [ByKind.get_set]
  by_cases hj : k = j
  · subst hj
    rw [if_pos rfl, if_pos rfl]
    have hkey : e.id ∉ (s.index k).entries.keys := by
      rw [← OrderedMap.contains_iff]
      intro hin
      have hin : s.contains k e.id = true := hin
      rw [hnew] at hin
      cases hin
    show ((s.index k).entries.insert e.id e).values = _
    unfold OrderedMap.values
    rw [OrderedMap.toList_insert_of_not_mem _ hkey, List.map_append]
    rfl
  · rw [if_neg hj, if_neg hj]

namespace Staging

variable {x y : Session}

/-- What the index will hold of records in a row. -/
def entriesOf (k : Kind) (ps : List (ObjectId × PendingRecord)) : List IndexEntry :=
  (ps.map Prod.snd).filterMap fun r => IndexEntry.ofObject? k r.object

theorem entriesOf_append (k : Kind) (ps qs : List (ObjectId × PendingRecord)) :
    entriesOf k (ps ++ qs) = entriesOf k ps ++ entriesOf k qs := by
  unfold entriesOf
  rw [List.map_append, List.filterMap_append]

theorem entriesOf_cons {k : Kind} {id : ObjectId} {r : PendingRecord} {e : IndexEntry}
    (he : IndexEntry.ofObject? k r.object = some e) (ps : List (ObjectId × PendingRecord)) :
    entriesOf k ((id, r) :: ps) = e :: entriesOf k ps := by
  unfold entriesOf
  rw [List.map_cons, List.filterMap_cons, he]

/-- A written entry moves from the pending ones to the end of the index. -/
theorem perm_entriesWith_of_wrote {k : Kind} {r : PendingRecord} (h : Wrote k r x y)
    (hfits : Fits x.store x.staging) (j : Kind) :
    (y.store.entriesWith j (y.staging.entries j)).Perm
      (x.store.entriesWith j (x.staging.entries j)) := by
  obtain ⟨e, he, hstore⟩ := h.entry
  have hid : e.id = r.id := IndexEntry.id_ofObject? he
  have hnew : x.store.contains k e.id = false := hid ▸ hfits.fresh k r.id r h.pending k
  have hentries : ∀ (z : Session) (i : Kind), z.staging.entries i =
      entriesOf i (z.staging.table i).toList := fun _ _ => rfl
  unfold Store.entriesWith
  rw [hstore, Store.entries_insert hnew, hentries, hentries, h.staging, table_take]
  by_cases hj : k = j
  · subst hj
    obtain ⟨front, back, hlist, herase, hother⟩ := OrderedMap.toList_erase_of_get? h.pending
    rw [if_pos rfl, if_pos rfl, herase, hlist, entriesOf_append, entriesOf_append,
      entriesOf_cons he]
    refine Store.perm_moved ?_
    rw [← entriesOf_append]
    intro e' he'
    obtain ⟨q, hq, hqe⟩ := List.mem_filterMap.1 he'
    obtain ⟨⟨id, q'⟩, hp, rfl⟩ := List.mem_map.1 hq
    have hpending : x.staging.get? k id = some q' := by
      rw [get?_eq_some_iff, hlist]
      rcases List.mem_append.1 hp with hp | hp
      · exact List.mem_append_left _ hp
      · exact List.mem_append_right _ (List.mem_cons_of_mem _ hp)
    rw [IndexEntry.id_ofObject? hqe, hid]
    exact hfits.keyed k id _ hpending ▸ hother _ hp
  · rw [if_neg hj, if_neg hj]

/-- What the index and the staging hold together stays the same. -/
theorem perm_entriesWith (h : Steps x y) (hfits : Fits x.store x.staging) (k : Kind) :
    (y.store.entriesWith k (y.staging.entries k)).Perm
      (x.store.entriesWith k (x.staging.entries k)) := by
  induction h with
  | refl => exact .refl _
  | idle _ last ih =>
    rw [last.store, last.staging]
    exact ih
  | write before last ih =>
    exact (perm_entriesWith_of_wrote last (Commit.fits_of_steps before hfits) k).trans ih

/-! ## Every commit -/

/-- What can be staged for a store: what came out of staging, committing and dropping in any order,
whatever each commit came to and whatever happened to the files in between. -/
inductive Reached : Store → Staging → Prop where
  | fresh (s : Store) : Reached s {}
  | stage {s : Store} {g g' : Staging} {k : Kind} {r : PendingRecord} (h : Reached s g)
    (hstage : g.stage s k r = .ok g') : Reached s g'
  | discard {s : Store} {g : Staging} (h : Reached s g) : Reached s g.discardAll.2
  | commit {s : Store} {g : Staging} (h : Reached s g) (host : Host) :
    Reached (commitAll.after ⟨host, s, g⟩).store (commitAll.after ⟨host, s, g⟩).staging

theorem fits_of_reached {s : Store} {g : Staging} (h : Reached s g) : Fits s g := by
  induction h with
  | fresh s => exact .empty s
  | stage _ hstage ih => exact ih.stage hstage
  | discard => exact .empty _
  | commit _ host ih => exact Commit.fits_of_steps (steps_commitAll ih) ih

/-- Between two sessions records were committed, and nothing else happened to what is known. -/
structure Conserved (x y : Session) : Prop where
  /-- The index and the pending records have the same entries together. -/
  entries : ∀ k, (y.store.entriesWith k (y.staging.entries k)).Perm
    (x.store.entriesWith k (x.staging.entries k))
  /-- A record that was pending is pending still and in no index, or it is pending no more, in the
  index and on disk; not both. -/
  record : ∀ k id r, x.staging.get? k id = some r →
    Xor (y.staging.get? k id = some r ∧ ∀ j, y.store.contains j id = false)
      (y.staging.isPending id = false ∧ Committed y k r)
  /-- The rest, in the order it was staged, is what the next commit works on. -/
  rest : ∀ k, (y.staging.table k).toList =
    (x.staging.table k).toList.filter fun e => !y.store.contains k e.1
  /-- What was not pending is known as before. -/
  others : ∀ k id, x.staging.get? k id = none → y.store.lookup? k id = x.store.lookup? k id

theorem get?_of_steps (h : Steps x y) (hfits : Fits x.store x.staging) {k : Kind} {id : ObjectId}
    {r : PendingRecord} (hr : y.staging.get? k id = some r) : x.staging.get? k id = some r := by
  have hmem := (get?_eq_some_iff _ _ _ _).1 hr
  rw [table_of_steps h hfits, List.mem_filter] at hmem
  exact (get?_eq_some_iff _ _ _ _).2 hmem.1

theorem conserved_of_steps (h : Steps x y) (hfits : Fits x.store x.staging) : Conserved x y where
  entries := perm_entriesWith h hfits
  rest := table_of_steps h hfits
  others := fun _ _ => lookup?_of_steps h hfits
  record := by
    intro k id r hr
    have hfits' := Commit.fits_of_steps h hfits
    rcases record_of_steps h hfits hr with hpending | ⟨hnone, hcommitted⟩
    · refine Or.inl ⟨⟨hpending, hfits'.fresh k id r hpending⟩, ?_⟩
      intro h'
      obtain ⟨hnot, -⟩ := h'
      rw [hfits'.isPending_eq_false] at hnot
      rw [hnot k] at hpending
      cases hpending
    · refine Or.inr ⟨⟨hfits'.isPending_eq_false.2 fun j => ?_, hcommitted⟩, ?_⟩
      · cases hj : y.staging.get? j id with
        | none => rfl
        | some q =>
          have hsame := hfits.single k j id r q hr (get?_of_steps h hfits hj)
          subst hsame
          rw [hnone] at hj
          cases hj
      · intro h'
        obtain ⟨hpending, -⟩ := h'
        rw [hnone] at hpending
        cases hpending

/-- Whatever a commit comes to, no record is lost and none is committed twice. -/
theorem commitAll_conserves {s : Store} {g : Staging} (h : Reached s g) (host : Host) :
    Conserved ⟨host, s, g⟩ (commitAll.after ⟨host, s, g⟩) :=
  conserved_of_steps (steps_commitAll (fits_of_reached h)) (fits_of_reached h)

/-- A project without objects, and a folder to be put into it. -/
def bare : Store where
  layout := { root := ⟨"/p"⟩ }
  model := ⟨"Studio.02.03.00", by decide⟩
  masters := ⟨⟨"w", by decide⟩, ⟨"e", by decide⟩, ⟨"b", by decide⟩, ⟨"a", by decide⟩⟩
  masterBus := ⟨"m", by decide⟩
  indices := ⟨.empty .eventFolder, .empty .assetFolder, .empty .bank, .empty .bus⟩
  keepJournals := true

def folder : PendingRecord := ⟨{ id := ⟨"f", by decide⟩, objectClass := .eventFolder }, []⟩

def bareHost : Host where
  ids := .ofStart 0
  operationName := fun _ => "op"
  now := ⟨0, 0⟩

theorem commitAll_conserves_bare :
    Reached bare (({} : Staging).add .eventFolder folder none) ∧
      Conserved ⟨bareHost, bare, ({} : Staging).add .eventFolder folder none⟩
        (commitAll.after ⟨bareHost, bare, ({} : Staging).add .eventFolder folder none⟩) ∧
      (commitAll.after ⟨bareHost, bare, ({} : Staging).add .eventFolder folder none⟩).staging.size
        = 0 := by
  have hreached : Reached bare (({} : Staging).add .eventFolder folder none) :=
    .stage (.fresh bare) (k := .eventFolder) (r := folder) rfl
  exact ⟨hreached, commitAll_conserves hreached bareHost, by decide +kernel⟩

end Staging

end AudioProject
