import AudioProject.Proofs.Hierarchy.Edges
import AudioProject.Proofs.Staging.Closure
import AudioProject.Proofs.Staging.Runs

/-
  When commits close a cycle of parents. A record is committed below a parent that is there, so
  its own pointer leads to nothing that is above it unless somebody pointed to its id before it
  came. Such a pointer is as old as the project: a record cannot point to what is not committed.
  Hence a cycle passes an object that named a missing parent from the start, and the record that
  took this id (`Growth.passesGap`). Records whose parents are among themselves are never ready
  and stay pending (`commitAll_withholds`).
-/

namespace AudioProject

open Session Staging

namespace Store

variable {s s' : Store} {k : Kind} {id : ObjectId}

theorem parent?_insert (s : Store) (k j : Kind) (e : IndexEntry) (id : ObjectId) :
    (s.insert k e).parent? j id =
      if k = j ∧ e.id = id then e.parent?.or (s.parent? j id) else s.parent? j id := by
  unfold parent?
  rw [index_insert]
  by_cases hj : k = j
  · rw [if_pos hj, KindIndex.parent?_insert]
    simp [hj]
  · rw [if_neg hj, if_neg fun h => hj h.1]

/-! ## A store that grows -/

theorem Growth.isSound (h : s.Growth s') (hs : s.IsSound) : s'.IsSound := by
  induction h with
  | refl => exact hs
  | insert _ _ _ ih => exact ih.insert _ _

theorem Growth.contains (h : s.Growth s') (hid : s.contains k id = true) :
    s'.contains k id = true := by
  induction h with
  | refl => exact hid
  | insert _ _ _ ih => rw [contains_insert, ih, Bool.or_true]

/-- A new id has no pointer. -/
theorem IsSound.parent?_eq_none (hs : s.IsSound) (hnew : s.contains k id = false) :
    s.parent? k id = none := by
  cases hp : s.parent? k id with
  | none => rfl
  | some p =>
    have hin : s.contains k id = true := (hs k).rooted id p hp
    rw [hnew] at hin
    cases hin

/-- A pointer to what is not there was there from the start. -/
theorem Growth.dangling (h : s.Growth s') {a d : ObjectId} (ha : s'.parent? k a = some d)
    (hd : s'.contains k d = false) : s.parent? k a = some d := by
  induction h with
  | refl => exact ha
  | @insert s' j e _ _ hparent ih =>
    rw [contains_insert, Bool.or_eq_false_iff] at hd
    rw [parent?_insert] at ha
    split at ha
    · next hsame =>
      obtain ⟨rfl, -⟩ := hsame
      rcases Option.or_eq_some_iff.1 ha with he | ⟨-, ha⟩
      · rw [hparent d he] at hd
        cases hd.2
      · exact ih ha hd.2
    · exact ih ha hd.2

/-- On the way up from `id`, a pointer that led nowhere before leads to an object that came. -/
def PassesGap (s s' : Store) (k : Kind) (id : ObjectId) : Prop :=
  ∃ a d, a ∈ s'.ancestors k id ∧ d ∈ s'.ancestors k id ∧ s.contains k a = true ∧
    s.parent? k a = some d ∧ s.contains k d = false ∧ s'.contains k d = true

/-- The way up may grow, as long as it keeps its pointers. -/
theorem PassesGap.insert (h : PassesGap s s' k id) {j : Kind} {e : IndexEntry}
    (hsub : ∀ id p, s'.parent? k id = some p → (s'.insert j e).parent? k id = some p) :
    PassesGap s (s'.insert j e) k id := by
  obtain ⟨a, d, ha, hd, hold, hpointer, hmissing, hcame⟩ := h
  rw [mem_ancestors_iff] at ha hd
  refine ⟨a, d, mem_ancestors_iff.2 (ha.mono hsub), mem_ancestors_iff.2 (hd.mono hsub), hold,
    hpointer, hmissing, ?_⟩
  rw [contains_insert, hcame, Bool.or_true]

theorem tree_insert_of_parent {e : IndexEntry} {p : ObjectId} (hp : e.parent? = some p) :
    ((s.insert k e).index k).tree = (s.index k).tree.addEdge e.id p := by
  rw [index_insert, if_pos rfl, KindIndex.tree_insert, hp]

/-- A cycle through the edge of a new entry comes to it by a pointer that led nowhere. -/
theorem Growth.passesGap_of_edge (before : s.Growth s') (hs : s.IsSound) {e : IndexEntry}
    {p : ObjectId} (hnew : s'.contains k e.id = false) (hp : e.parent? = some p)
    (hparent : s'.contains k p = true)
    (hup : Relation.ReflTransGen ((s'.insert k e).index k).tree.Under id e.id)
    (hdown : ((s'.insert k e).index k).tree.Below e.id id) : PassesGap s (s'.insert k e) k id := by
  have htree := tree_insert_of_parent (s := s') (k := k) hp
  have hne : p ≠ e.id := by
    rintro rfl
    rw [hnew] at hparent
    cases hparent
  obtain ⟨a, ha, hpointer⟩ := Hierarchy.exists_parent?_of_cycle hne
    (htree ▸ hdown.trans_left hup)
  have hold := before.dangling hpointer hnew
  have hmissing : s.contains k e.id = false := by
    rw [Bool.eq_false_iff]
    intro hin
    rw [before.contains hin] at hnew
    cases hnew
  have hcame : (s'.insert k e).contains k e.id = true := by
    rw [contains_insert]
    simp
  have hbelow : ∀ b, ((s'.insert k e).index k).tree.Below e.id b →
      b ∈ (s'.insert k e).ancestors k id :=
    fun b hb => mem_ancestors_iff.2 (.trans_right hup hb)
  exact ⟨a, e.id, hbelow a (htree ▸ ha), hbelow _ (hdown.trans_left hup), (hs k).rooted a _ hold,
    hold, hmissing, hcame⟩

/-- Every cycle in a store that grew from one without cycles passes a gap. -/
theorem Growth.passesGap (h : s.Growth s') (hs : s.IsSound)
    (hacyclic : ∀ id, s.contains k id = true → id ∉ s.ancestors k id)
    (hcycle : id ∈ s'.ancestors k id) : PassesGap s s' k id := by
  induction h generalizing id with
  | refl =>
    have hbelow := mem_ancestors_iff.1 hcycle
    obtain ⟨p, hp, -⟩ := Relation.TransGen.head'_iff.1 hbelow
    exact absurd hcycle (hacyclic id ((hs k).rooted id p hp))
  | @insert s' j e before hnew hparent ih =>
    have hnone := (before.isSound hs).parent?_eq_none (hnew k)
    have hsub : ∀ id p, s'.parent? k id = some p → (s'.insert j e).parent? k id = some p := by
      intro b p hp
      rw [parent?_insert, if_neg, hp]
      rintro ⟨-, rfl⟩
      rw [hnone] at hp
      cases hp
    by_cases hsame : ∀ b, (s'.insert j e).parent? k b = s'.parent? k b
    · have hancestors : (s'.insert j e).ancestors k id = s'.ancestors k id :=
        Hierarchy.ancestors_congr hsame id
      rw [hancestors] at hcycle
      exact (ih hcycle).insert hsub
    -- the entry brings an edge from its id to its parent
    obtain ⟨rfl, p, hp⟩ : j = k ∧ ∃ p, e.parent? = some p := by
      obtain ⟨b, hb⟩ := not_forall.1 hsame
      rw [parent?_insert] at hb
      split at hb
      · next hkind =>
        refine ⟨hkind.1, Option.ne_none_iff_exists'.1 fun hnot => hb ?_⟩
        rw [hnot, Option.none_or]
      · exact absurd rfl hb
    have htree := tree_insert_of_parent (s := s') (k := j) hp
    rcases Hierarchy.below_addEdge (htree ▸ mem_ancestors_iff.1 hcycle) with hbefore | ⟨hup, hdown⟩
    · exact (ih (mem_ancestors_iff.2 hbefore)).insert hsub
    · exact before.passesGap_of_edge hs (hnew j) hp (hparent p hp) (htree ▸ hup) (htree ▸ hdown)

end Store

/-! ## Records that wait for each other -/

namespace Staging

variable {s : Store} {g : Staging} {k : Kind} {r : PendingRecord} {ids : List ObjectId}
  {x : Session}

/-- Pending records whose parents are among themselves, as on a cycle. -/
def Knotted (g : Staging) (k : Kind) (ids : List ObjectId) : Prop :=
  ∀ id ∈ ids, ∃ r p, g.get? k id = some r ∧ r.parent? k = some p ∧ p ∈ ids

theorem Knotted.ne_assetFolder (h : Knotted g k ids) {id : ObjectId} (hid : id ∈ ids) :
    k ≠ .assetFolder := by
  rintro rfl
  obtain ⟨r, p, -, hp, -⟩ := h id hid
  cases hp

theorem not_mem_of_settles (hfits : Fits s g) (hknot : Knotted g k ids)
    (hsettles : Settles s g k r) : r.id ∉ ids := by
  induction hsettles with
  | @grounded r hr hgrounded =>
    intro hid
    obtain ⟨r', p, hr', hp, hmem⟩ := hknot r.id hid
    obtain rfl : r = r' := Option.some.inj (hr.symm.trans hr')
    obtain ⟨q, -, hq, -, -⟩ := hknot p hmem
    unfold Grounded at hgrounded
    rw [if_neg (hknot.ne_assetFolder hid)] at hgrounded
    have hin := hgrounded p hp
    rw [hfits.fresh k p q hq k] at hin
    cases hin
  | @under q r hr _ hparent ih =>
    intro hid
    obtain ⟨r', p, hr', hp, hmem⟩ := hknot r.id hid
    obtain rfl : r = r' := Option.some.inj (hr.symm.trans hr')
    unfold IsParent at hparent
    rw [if_neg (hknot.ne_assetFolder hid), hp] at hparent
    exact ih (Option.some.inj hparent ▸ hmem)

/-- The records of `ids` are pending as before and in no index, and the error names them unless
the commit ended before it was through with their kind. -/
structure Withheld (k : Kind) (ids : List ObjectId) (x y : Session) (e : Error) : Prop where
  pending : ∀ id ∈ ids, y.staging.get? k id = x.staging.get? k id
  uncommitted : ∀ id ∈ ids, ∀ j, y.store.contains j id = false
  reported : Commit.IsWriteError e ∨ ∃ j left counts, e = .unresolved j left counts ∧
    (j.rank < k.rank ∨ j = k ∧ ∀ id ∈ ids, id ∈ left)

/-- No commit gets through with records that wait for each other. -/
theorem commitAll_withholds (hfits : Fits x.store x.staging) (hknot : Knotted x.staging k ids)
    (hne : ids ≠ []) : ∃ e y, commitAll x = .error e y ∧ Withheld k ids x y e := by
  have hstays : ∀ {y}, Steps x y → ∀ id ∈ ids, ∃ r, x.staging.get? k id = some r ∧
      y.staging.get? k id = some r := by
    intro y hsteps id hid
    obtain ⟨r, -, hr, -, -⟩ := hknot id hid
    refine ⟨r, hr, ?_⟩
    rcases record_of_steps hsteps hfits hr with hpending | ⟨hnone, -⟩
    · exact hpending
    · have hkeyed := hfits.keyed k id r hr
      subst hkeyed
      exact absurd hid (not_mem_of_settles hfits hknot (settles_of_gone hsteps hfits ⟨hr, hnone⟩))
  obtain ⟨id, hid⟩ := List.exists_mem_of_ne_nil ids hne
  have hleft : ∀ {y}, Steps x y → y.staging.ids k ≠ [] := by
    intro y hsteps hnil
    obtain ⟨r, -, hr⟩ := hstays hsteps id hid
    rw [get?_eq_none_of_ids hnil] at hr
    cases hr
  have hsize : x.staging.size ≠ 0 := fun hzero => hleft (.refl x) (hfits.ids_eq_nil_of_size hzero k)
  have hstart := (Steps.refl x).idle (Commit.idle_start x)
  have hsteps := steps_commitAll hfits
  cases h : Commit.run (Commit.start x) with
  | ok u c =>
    obtain ⟨hworked, hnil⟩ := Commit.run_eq_ok hfits h
    exact absurd (hnil k) (hleft (hstart.trans hworked.steps))
  | error e c =>
    have hrun := commitAll_of_error hsize h
    rw [Action.after_of_error hrun] at hsteps
    refine ⟨e, c.toSession, hrun, ⟨fun id hid => ?_, fun id hid => ?_, ?_⟩⟩
    · obtain ⟨r, hr, hr'⟩ := hstays hsteps id hid
      exact hr'.trans hr.symm
    · obtain ⟨r, -, hr'⟩ := hstays hsteps id hid
      exact (Commit.fits_of_steps hsteps hfits).fresh k id r hr'
    rcases Commit.run_eq_error hfits h with hwrite | ⟨front, j, back, hall, -, hstuck, hnil⟩
    · exact Or.inl hwrite
    refine Or.inr ⟨j, c.staging.ids j, c.counts, hstuck.error, ?_⟩
    rcases Nat.lt_trichotomy j.rank k.rank with hlt | heq | hgt
    · exact Or.inl hlt
    · obtain rfl := Kind.rank_inj heq
      refine Or.inr ⟨rfl, fun id hid => ?_⟩
      obtain ⟨r, -, hr'⟩ := hstays hsteps id hid
      exact (mem_ids_iff _ _ _).2 ⟨r, hr'⟩
    · exact absurd (hnil k ((mem_front_iff hall k).2 hgt)) (hleft hsteps)

end Staging

/-! ## Runs -/

/-- Staging and committing can only close a cycle through the id of a missing parent: in a project
without cycles, every cycle that a run leaves passes an object that named a missing parent before,
and the record that was committed under this id. Pending records whose parents are among
themselves stay pending in every commit, which ends with an error that names them unless it ends
before. -/
theorem cycles_pass_gaps {t : FileTree} {l : Layout} {keep : Bool} {s : Store}
    (hopen : Store.load t l keep = .ok s) {host : Host} {y : Session}
    (hrun : Run (Restaged fun _ _ => True) ⟨host, s, {}⟩ y) {k : Kind}
    (hacyclic : ∀ id, s.contains k id = true → id ∉ s.ancestors k id) :
    (∀ id, id ∈ y.store.ancestors k id → Store.PassesGap s y.store k id) ∧
      ∀ ids, ids ≠ [] → Knotted y.staging k ids →
        ∃ e z, commitAll y = .error e z ∧ Withheld k ids y z e := by
  have hfits := Fits.empty s
  refine ⟨fun id => ?_, fun ids hne hknot => commitAll_withholds (hrun.fits hfits) hknot hne⟩
  exact (hrun.growth hfits).passesGap (Store.isSound_of_load hopen) hacyclic

/-! ### The missing parent of a folder -/

/-- The missing parent of the folder that is there, to be put below this folder. -/
def gone : PendingRecord := folderIn Store.missing Store.lost.id

/-- A folder that is its own parent. -/
def loop : PendingRecord := folderIn ⟨"loop", by decide⟩ ⟨"loop", by decide⟩

/-- The project after a commit of both. -/
def looped : Session := commitAll.after ⟨Store.loftHost, Store.loft,
  (({} : Staging).add .eventFolder gone none).add .eventFolder loop none⟩

theorem run_looped : Run (Restaged fun _ _ => True) ⟨Store.loftHost, Store.loft, {}⟩ looped :=
  .commit (.restage (.restage .refl (.stage (k := .eventFolder) (r := gone) trivial rfl))
    (.stage (k := .eventFolder) (r := loop) trivial rfl))

theorem acyclic_loft (k : Kind) (id : ObjectId) (hid : Store.loft.contains k id = true) :
    id ∉ Store.loft.ancestors k id := by
  have hall : ∀ k ∈ Kind.all, ∀ id ∈ (Store.loft.index k).entries.keys,
      id ∉ Store.loft.ancestors k id := by decide +kernel
  exact hall k (Kind.mem_all k) id (((Store.loft.index k).entries.contains_iff id).1 hid)

/-- The parent of a ready record is there, but not what is above that: a record can take the id
that its own parent hangs from. -/
theorem commit_closes_cycle :
    Store.load Store.loftFiles Store.loft.layout Store.loft.keepJournals = .ok Store.loft ∧
      (∀ k id, Store.loft.contains k id = true → id ∉ Store.loft.ancestors k id) ∧
      Run (Restaged fun _ _ => True) ⟨Store.loftHost, Store.loft, {}⟩ looped ∧
      looped.store.contains .eventFolder gone.id = true ∧
      gone.id ∈ looped.store.ancestors .eventFolder gone.id ∧
      looped.staging.get? .eventFolder gone.id = none :=
  ⟨Store.load_loftFiles, acyclic_loft, run_looped, by decide +kernel, by decide +kernel,
    by decide +kernel⟩

theorem cycles_pass_gaps_looped :
    Run (Restaged fun _ _ => True) ⟨Store.loftHost, Store.loft, {}⟩ looped ∧
      Store.PassesGap Store.loft looped.store .eventFolder gone.id ∧
      ∃ e z, commitAll looped = .error e z ∧ Withheld .eventFolder [loop.id] looped z e := by
  have hcycle : gone.id ∈ looped.store.ancestors .eventFolder gone.id := by decide +kernel
  have hloop : looped.staging.get? .eventFolder loop.id = some loop := by decide +kernel
  obtain ⟨hgaps, hknots⟩ := cycles_pass_gaps Store.load_loftFiles run_looped
    (acyclic_loft .eventFolder)
  refine ⟨run_looped, hgaps gone.id hcycle, hknots [loop.id] (by simp) ?_⟩
  intro id hid
  rw [List.mem_singleton.1 hid]
  exact ⟨loop, loop.id, hloop, rfl, List.mem_singleton_self _⟩

end AudioProject
