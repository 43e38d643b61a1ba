import AudioProject.Proofs.Staging.Closure
import AudioProject.Proofs.Staging.Runs

/-
  The paths of asset folders. Staging looks for a path among the committed folders and among the
  reserved paths, so paths stay distinct as long as every pending folder has its path reserved
  (`Staging.Reserves`). A commit sets the path free that a record names, also if the record is
  no asset folder. It keeps the reservations exactly if it spares the pending folders
  (`reserves_iff_spares`), and with commits that do so all is well at every moment of a session
  (`asset_paths_stay_unique`). An event folder that names the path of a pending asset folder ends
  its reservation when it is committed, and another folder can take the path
  (`path_taken_twice`).
-/

namespace AudioProject

open Staging Session

/-! ## The paths of an index -/

namespace Store

variable {s s' : Store} {p : AssetPath} {e : IndexEntry}

/-- Every asset folder makes its path lead somewhere. -/
def Finds (s : Store) : Prop :=
  ∀ id e p, s.lookup? .assetFolder id = some e → e.assetPath? = some p →
    (s.assetFolderAt? p).isSome = true

theorem finds_of_load {t : FileTree} {l : Layout} {keep : Bool} (h : load t l keep = .ok s) :
    s.Finds := by
  obtain ⟨-, -, c, -, hpresents⟩ := load_eq_ok_iff.1 h
  have hindex : ∀ id e p, (c.index .assetFolder).get? id = some e → e.assetPath? = some p →
      ((c.index .assetFolder).paths.get? p).isSome = true := by
    refine KindIndex.insertObjects_induction (P := fun x => ∀ id e p, x.get? id = some e →
      e.assetPath? = some p → (x.paths.get? p).isSome = true) nofun ?_
    intro x o e' _ _ hx id e p he hp
    rw [KindIndex.paths_insert]
    split
    · rfl
    · next hne =>
      rw [KindIndex.get?_insert] at he
      split at he
      · cases he
        exact absurd hp hne
      · exact hx id e p he hp
  intro id e p he hp
  rw [assetFolderAt?_isSome, hpresents.index]
  rw [lookup?, hpresents.index] at he
  exact hindex id e p he hp

theorem Finds.insert (h : s.Finds) (k : Kind) (e : IndexEntry) : (s.insert k e).Finds := by
  intro id e' p he hp
  rw [assetFolderAt?_insert, Bool.or_eq_true, decide_eq_true_iff]
  rw [lookup?_insert] at he
  split at he
  · next hnew =>
    cases he
    exact Or.inl ⟨hnew.1, hp⟩
  · exact Or.inr (h id e' p he hp)

theorem Growth.finds (h : s.Growth s') (hs : s.Finds) : s'.Finds := by
  induction h with
  | refl => exact hs
  | insert _ _ _ ih => exact ih.insert _ _

/-- The entry that a path leads to stands under its own id. -/
theorem lookup?_of_assetFolderAt? (h : s.assetFolderAt? p = some e) :
    s.lookup? .assetFolder e.id = some e := by
  obtain ⟨id, -, he⟩ := Option.bind_eq_some_iff.1 h
  rw [(s.index .assetFolder).keyed id e he]
  exact he

/-- A path that leads to a folder which has another one did so before. -/
theorem Growth.stale (h : s.Growth s') (he : s'.assetFolderAt? p = some e)
    (hp : e.assetPath? ≠ some p) : s.assetFolderAt? p = some e := by
  induction h with
  | refl => exact he
  | insert _ hnew _ ih =>
    refine ih ?_
    unfold assetFolderAt? at he ⊢
    rw [index_insert] at he
    split at he
    · exact KindIndex.byPath?_of_insert (hnew .assetFolder) he hp
    · exact he

end Store

/-! ## Reserved paths -/

namespace Staging

variable {g g' : Staging} {s : Store} {k : Kind} {r : PendingRecord} {p : AssetPath}
  {id : ObjectId}

/-- The pending asset folder `id` has the path. -/
def Places (g : Staging) (p : AssetPath) (id : ObjectId) : Prop :=
  ∃ r, g.get? .assetFolder id = some r ∧ r.assetPath? = some p

/-- A path is reserved exactly for the pending asset folder that has it. -/
def Reserves (g : Staging) : Prop := ∀ p id, g.paths.get? p = some id ↔ g.Places p id

theorem paths_add (g : Staging) (k : Kind) (r : PendingRecord) (path : Option AssetPath)
    (p : AssetPath) :
    (g.add k r path).paths.get? p = if path = some p then some r.id else g.paths.get? p := by
  cases path with
  | none => rfl
  | some q =>
    show (g.paths.insert q r.id).get? p = _
    rw [OrderedMap.get?_insert]
    simp

theorem paths_take (g : Staging) (k : Kind) (r : PendingRecord) (p : AssetPath) :
    (g.take k r).paths.get? p = if r.assetPath? = some p then none else g.paths.get? p := by
  unfold take
  dsimp only
  cases r.assetPath? with
  | none => rfl
  | some q =>
    dsimp only
    rw [OrderedMap.get?_erase]
    simp

theorem Reserves.empty : ({} : Staging).Reserves := by
  intro p id
  constructor
  · intro h
    cases h
  · rintro ⟨r, hr, -⟩
    rw [get?_empty] at hr
    cases hr

/-- What a new record adds: the path of an asset folder. -/
theorem places_add (hsound : g.Sound) (hfree : g.isPending r.id = false)
    (path : Option AssetPath) :
    (g.add k r path).Places p id ↔
      (k = .assetFolder ∧ r.id = id ∧ r.assetPath? = some p) ∨ g.Places p id := by
  rw [hsound.isPending_eq_false] at hfree
  unfold Places
  rw [get?_add]
  constructor
  · rintro ⟨q, hq, hp⟩
    split at hq
    · next hnew =>
      cases hq
      exact Or.inl ⟨hnew.1, hnew.2, hp⟩
    · exact Or.inr ⟨q, hq, hp⟩
  · rintro (⟨hk, hid, hp⟩ | ⟨q, hq, hp⟩)
    · exact ⟨r, if_pos ⟨hk, hid⟩, hp⟩
    · refine ⟨q, ?_, hp⟩
      rw [if_neg, hq]
      rintro ⟨-, rfl⟩
      rw [hfree] at hq
      cases hq

/-- Staging reserves the path of an asset folder, and nothing for other records. -/
theorem Reserves.stage (h : g.Reserves) (hsound : g.Sound) (hstage : g.stage s k r = .ok g') :
    g'.Reserves := by
  obtain ⟨-, -, ⟨hpending, -⟩, path, htake, rfl⟩ := stage_passes_iff.1 hstage
  intro p id
  rw [paths_add, places_add hsound hpending]
  rcases pathToTake_eq_ok htake with ⟨hk, q, rfl, hq, hholder⟩ | ⟨hk, rfl⟩
  · by_cases hsame : q = p
    · subst hsame
      rw [if_pos rfl, ← h, (holder?_eq_none.1 hholder).2]
      simp [hk, hq]
    · rw [if_neg (by simpa using hsame), h]
      simp [hq, hsame]
  · rw [if_neg (by simp), h]
    simp [hk]

/-! ## What a commit leaves reserved -/

variable {x y : Session}

theorem places_of_steps (h : Steps x y) (hfits : Fits x.store x.staging) :
    y.staging.Places p id ↔
      x.staging.Places p id ∧ (y.staging.get? .assetFolder id).isSome = true := by
  constructor
  · rintro ⟨r, hr, hp⟩
    refine ⟨⟨r, get?_of_steps h hfits hr, hp⟩, ?_⟩
    rw [hr]
    rfl
  · rintro ⟨⟨r, hr, hp⟩, hsome⟩
    rcases record_of_steps h hfits hr with hpending | ⟨hnone, -⟩
    · exact ⟨r, hpending, hp⟩
    · rw [hnone] at hsome
      cases hsome

/-- A commit sets every path free that a committed record names. -/
theorem paths_of_steps (h : Steps x y) (hfits : Fits x.store x.staging) :
    y.staging.paths.get? p = some id ↔
      x.staging.paths.get? p = some id ∧ ∀ k r, Gone x y k r → r.assetPath? ≠ some p := by
  induction h with
  | refl =>
    refine ⟨fun hid => ⟨hid, ?_⟩, And.left⟩
    rintro k r ⟨hr, hnone⟩
    rw [hr] at hnone
    cases hnone
  | idle _ last ih =>
    unfold Gone
    rw [last.staging]
    exact ih
  | @write y z j q before last ih =>
    simp only [gone_of_wrote before hfits last]
    rw [last.staging, paths_take]
    constructor
    · intro hid
      split at hid
      · cases hid
      next hne =>
      obtain ⟨hold, hgone⟩ := ih.1 hid
      refine ⟨hold, ?_⟩
      rintro k r (hr | ⟨-, rfl⟩)
      · exact hgone k r hr
      · exact hne
    · rintro ⟨hold, hgone⟩
      rw [if_neg (hgone j q (Or.inr ⟨rfl, rfl⟩))]
      exact ih.2 ⟨hold, fun k r hr => hgone k r (Or.inl hr)⟩

/-- No record of another kind that a commit took out names the path of an asset folder that is
pending still. -/
def Spares (x y : Session) : Prop :=
  ∀ k r p id, k ≠ .assetFolder → Gone x y k r → r.assetPath? = some p → ¬ y.staging.Places p id

theorem reserves_iff_spares (h : Steps x y) (hfits : Fits x.store x.staging)
    (hx : x.staging.Reserves) : y.staging.Reserves ↔ Spares x y := by
  constructor
  · intro hy k r p id _ hgone hp hplaces
    exact ((paths_of_steps h hfits).1 ((hy p id).2 hplaces)).2 k r hgone hp
  · intro hspares p id
    refine ⟨(Commit.fits_of_steps h hfits).paths p id, fun hplaces => ?_⟩
    obtain ⟨hold, hsome⟩ := (places_of_steps h hfits).1 hplaces
    refine (paths_of_steps h hfits).2 ⟨(hx p id).2 hold, ?_⟩
    intro k r hgone hp
    by_cases hk : k = .assetFolder
    · -- an asset folder with this path is the one that is pending still
      subst hk
      have hid := ((hx p r.id).2 ⟨r, hgone.1, hp⟩).symm.trans ((hx p id).2 hold)
      obtain rfl := Option.some.inj hid
      rw [hgone.2] at hsome
      cases hsome
    · exact hspares k r p id hk hgone hp hplaces

end Staging

/-! ## The paths of a session -/

namespace Session

variable {x y : Session} {g : Staging} {k : Kind} {r : PendingRecord} {p : AssetPath}
  {id : ObjectId}

/-- The paths of all asset folders, committed and pending. -/
def assetPaths (x : Session) : List AssetPath :=
  (x.store.entries .assetFolder).filterMap IndexEntry.assetPath? ++
    (x.staging.table .assetFolder).values.filterMap PendingRecord.assetPath?

/-- The asset folder `id`, committed or pending, has the path. -/
def HasPath (x : Session) (p : AssetPath) (id : ObjectId) : Prop :=
  (∃ e, x.store.lookup? .assetFolder id = some e ∧ e.assetPath? = some p) ∨ x.staging.Places p id

/-- No path has two holders. -/
def SingleHolders (x : Session) : Prop := ∀ p id id', x.HasPath p id → x.HasPath p id' → id = id'

theorem nodup_assetPaths_iff (hfits : Fits x.store x.staging) :
    x.assetPaths.Nodup ↔ x.SingleHolders := by
  have hcommitted := OrderedMap.nodup_filterMap_values (x.store.index .assetFolder).entries
    IndexEntry.assetPath?
  have hpending := OrderedMap.nodup_filterMap_values (x.staging.table .assetFolder)
    PendingRecord.assetPath?
  unfold assetPaths Store.entries KindIndex.list
  rw [List.nodup_append, hcommitted, hpending]
  simp only [OrderedMap.mem_filterMap_values]
  constructor
  · rintro ⟨hstore, hstaging, hboth⟩ p id id' (⟨e, he, hp⟩ | ⟨r, hr, hp⟩)
      (⟨e', he', hp'⟩ | ⟨r', hr', hp'⟩)
    · exact hstore id id' e e' p he he' hp hp'
    · exact absurd rfl (hboth p ⟨id, e, he, hp⟩ p ⟨id', r', hr', hp'⟩)
    · exact absurd rfl (hboth p ⟨id', e', he', hp'⟩ p ⟨id, r, hr, hp⟩)
    · exact hstaging id id' r r' p hr hr' hp hp'
  · intro h
    refine ⟨fun id id' e e' p he he' hp hp' => ?_, fun id id' r r' p hr hr' hp hp' => ?_, ?_⟩
    · exact h p id id' (Or.inl ⟨e, he, hp⟩) (Or.inl ⟨e', he', hp'⟩)
    · exact h p id id' (Or.inr ⟨r, hr, hp⟩) (Or.inr ⟨r', hr', hp'⟩)
    · rintro p ⟨id, e, he, hp⟩ q ⟨id', r, hr, hq⟩ rfl
      obtain rfl := h p id id' (Or.inl ⟨e, he, hp⟩) (Or.inr ⟨r, hr, hq⟩)
      have hfree := hfits.fresh _ _ _ hr .assetFolder
      rw [Store.contains_eq, Option.isSome_eq_false_iff, Option.isNone_iff_eq_none] at hfree
      cases hfree.symm.trans he

/-- A commit takes no path from its holder. -/
theorem hasPath_of_steps (h : Steps x y) (hfits : Fits x.store x.staging) :
    y.HasPath p id ↔ x.HasPath p id := by
  induction h with
  | refl => exact Iff.rfl
  | idle _ last ih =>
    unfold HasPath
    rw [last.store, last.staging]
    exact ih
  | @write y z k r before last ih =>
    refine Iff.trans ?_ ih
    have hfits' := Commit.fits_of_steps before hfits
    obtain ⟨e, he, hstore⟩ := last.entry
    have hid : e.id = r.id := IndexEntry.id_ofObject? he
    have hpath := assetPath?_of_admitted (hfits'.admitted k r.id r last.pending) he
    unfold HasPath Places
    rw [hstore, last.staging, Store.lookup?_insert, get?_take, hid]
    by_cases hnew : k = .assetFolder ∧ r.id = id
    · -- the entry takes the place of the record
      obtain ⟨rfl, rfl⟩ := hnew
      have hfree := hfits'.fresh _ _ _ last.pending .assetFolder
      rw [Store.contains_eq, Option.isSome_eq_false_iff, Option.isNone_iff_eq_none] at hfree
      simp [hfree, last.pending, hpath]
    · rw [if_neg hnew, if_neg hnew]

/-- A new asset folder has its path, and all others keep theirs. -/
theorem hasPath_stage (hsound : x.staging.Sound) (hstage : x.staging.stage x.store k r = .ok g) :
    ({ x with staging := g } : Session).HasPath p id ↔
      (k = .assetFolder ∧ r.id = id ∧ r.assetPath? = some p) ∨ x.HasPath p id := by
  obtain ⟨-, hpending, -, path, rfl, -⟩ := stage_eq_ok hstage
  unfold HasPath
  rw [places_add hsound hpending]
  exact or_left_comm

/-- Staging finds a holder of every path that has one. -/
theorem isSome_holder?_of_hasPath (hfinds : x.store.Finds) (hreserves : x.staging.Reserves)
    (h : x.HasPath p id) : (x.staging.holder? x.store p).isSome = true := by
  by_contra hnone
  rw [Option.not_isSome_iff_eq_none, holder?_eq_none] at hnone
  rcases h with ⟨e, he, hp⟩ | hplaces
  · rw [hfinds id e p he hp] at hnone
    cases hnone.1
  · rw [(hreserves p id).2 hplaces] at hnone
    cases hnone.2

theorem SingleHolders.stage (h : x.SingleHolders) (hsound : x.staging.Sound)
    (hfinds : x.store.Finds) (hreserves : x.staging.Reserves) (hstage : x.staging.stage x.store k r = .ok g) :
    ({ x with staging := g } : Session).SingleHolders := by
  obtain ⟨-, -, -, path, htake, -⟩ := stage_passes_iff.1 hstage
  -- the path of a new asset folder has no holder yet
  have hfree : ∀ p id, k = .assetFolder → r.assetPath? = some p → ¬ x.HasPath p id := by
    intro p id hk hp hhas
    rcases pathToTake_eq_ok htake with ⟨-, q, -, hq, hholder⟩ | ⟨hne, -⟩
    · obtain rfl : q = p := Option.some.inj (hq.symm.trans hp)
      have hsome := isSome_holder?_of_hasPath hfinds hreserves hhas
      rw [hholder] at hsome
      cases hsome
    · exact hne hk
  intro p id id' hid hid'
  rw [hasPath_stage hsound hstage] at hid hid'
  rcases hid with ⟨hk, hid, hp⟩ | hid <;> rcases hid' with ⟨hk', hid', hp'⟩ | hid'
  · exact hid.symm.trans hid'
  · exact absurd hid' (hfree p id' hk hp)
  · exact absurd hid (hfree p id hk' hp')
  · exact h p id id' hid hid'

/-- Once everything is discarded, only committed folders have paths. -/
theorem SingleHolders.discard (h : x.SingleHolders) :
    ({ x with staging := x.staging.discardAll.2 } : Session).SingleHolders := by
  have hcommitted : ∀ p id, ({ x with staging := {} } : Session).HasPath p id → x.HasPath p id := by
    rintro p id (hstore | ⟨r, hr, -⟩)
    · exact Or.inl hstore
    · rw [get?_empty] at hr
      cases hr
  exact fun p id id' hid hid' => h p id id' (hcommitted p id hid) (hcommitted p id' hid')

/-! ## Runs -/

/-- A run in which every commit spares the asset folders that are pending after it. -/
inductive SparingRun (x : Session) : Session → Prop where
  | refl : SparingRun x x
  | restage {y : Session} {g : Staging} (h : SparingRun x y)
    (hg : Restaged (fun _ _ => True) y g) : SparingRun x { y with staging := g }
  | outside {y : Session} (h : SparingRun x y) (host : Host)
    (hfiles : host.files = y.host.files) : SparingRun x { y with host := host }
  | commit {y : Session} (h : SparingRun x y) (spares : Spares y (commitAll.after y)) :
    SparingRun x (commitAll.after y)

theorem SparingRun.run (h : SparingRun x y) : Run (Restaged fun _ _ => True) x y := by
  induction h with
  | refl => exact .refl
  | restage _ hg ih => exact ih.restage hg
  | outside _ host hfiles ih => exact ih.outside host hfiles
  | commit _ _ ih => exact ih.commit

theorem SparingRun.reserves (h : SparingRun x y) (hfits : Fits x.store x.staging)
    (hreserves : x.staging.Reserves) : y.staging.Reserves := by
  induction h with
  | refl => exact hreserves
  | restage before hg ih =>
    cases hg with
    | stage _ hstage => exact ih.stage (before.run.fits hfits).toSound hstage
    | discard => exact .empty
  | outside _ _ _ ih => exact ih
  | commit before spares ih =>
    have hfits' := before.run.fits hfits
    exact (reserves_iff_spares (steps_commitAll hfits') hfits' ih).2 spares

theorem SparingRun.singleHolders (h : SparingRun x y) (hfits : Fits x.store x.staging)
    (hfinds : x.store.Finds) (hreserves : x.staging.Reserves) (hsingle : x.SingleHolders) :
    y.SingleHolders := by
  induction h with
  | refl => exact hsingle
  | restage before hg ih =>
    cases hg with
    | stage _ hstage =>
      have hfinds' := (before.run.growth hfits).finds hfinds
      exact ih.stage (before.run.fits hfits).toSound hfinds' (before.reserves hfits hreserves)
        hstage
    | discard => exact ih.discard
  | outside _ _ _ ih => exact ih
  | commit before _ ih =>
    have hfits' := before.run.fits hfits
    intro p id id' hid hid'
    rw [hasPath_of_steps (steps_commitAll hfits') hfits'] at hid hid'
    exact ih p id id' hid hid'

/-- How the paths of asset folders stand in a session that began with the store `s`. -/
structure KeepsPaths (s : Store) (x : Session) : Prop where
  distinct : x.assetPaths.Nodup
  reserves : x.staging.Reserves
  /-- A record that would take a path again is refused, and the holder named; the index may name
  a folder that had the path when the project was opened, and has another one. -/
  refuses : ∀ r p id, Kind.accepts .assetFolder r.object.objectClass = true →
    r.assetPath? = some p → p.isRoot = false → x.staging.isPending r.id = false →
    x.store.containsAny r.id = false → x.HasPath p id →
    ∃ holder, x.staging.stage x.store .assetFolder r = .error (.duplicatePath p holder) ∧
      (holder = id ∨ ∃ e, s.assetFolderAt? p = some e ∧ e.id = holder ∧ e.assetPath? ≠ some p)
  /-- A commit that does not spare the pending folders leaves one of them without its path. -/
  commit : (commitAll.after x).staging.Reserves ↔ Spares x (commitAll.after x)

/-- The answer to an asset folder whose id is new and whose path has a holder. -/
theorem stage_duplicatePath {holder : ObjectId}
    (hclass : Kind.accepts .assetFolder r.object.objectClass = true) (hp : r.assetPath? = some p)
    (hroot : p.isRoot = false) (hpending : x.staging.isPending r.id = false)
    (hfree : x.store.containsAny r.id = false)
    (hholder : x.staging.holder? x.store p = some holder) :
    x.staging.stage x.store .assetFolder r = .error (.duplicatePath p holder) := by
  rw [stage_eq]
  unfold pathToTake
  simp [hclass, hp, hroot, hpending, hfree, hholder]

/-- It is staged if the path has none. -/
theorem stage_assetFolder (hclass : Kind.accepts .assetFolder r.object.objectClass = true)
    (hp : r.assetPath? = some p) (hroot : p.isRoot = false)
    (hpending : x.staging.isPending r.id = false) (hfree : x.store.containsAny r.id = false)
    (hholder : x.staging.holder? x.store p = none) :
    x.staging.stage x.store .assetFolder r = .ok (x.staging.add .assetFolder r (some p)) := by
  rw [stage_eq]
  unfold pathToTake
  simp [hclass, hp, hroot, hpending, hfree, hholder]

/-- The folder that staging names has the path, or the index leads the path to one that does
not. -/
theorem hasPath_of_holder? {holder : ObjectId} (hreserves : x.staging.Reserves)
    (h : x.staging.holder? x.store p = some holder) :
    x.HasPath p holder ∨
      ∃ e, x.store.assetFolderAt? p = some e ∧ e.id = holder ∧ e.assetPath? ≠ some p := by
  unfold holder? at h
  split at h
  · next e he =>
    cases h
    by_cases hp : e.assetPath? = some p
    · exact Or.inl (Or.inl ⟨e, Store.lookup?_of_assetFolderAt? he, hp⟩)
    · exact Or.inr ⟨e, he, rfl, hp⟩
  · exact Or.inl (Or.inr ((hreserves p holder).1 h))

end Session

/-- In a project whose asset folders have distinct paths the paths stay distinct, exactly those of
the pending folders are reserved, and no path is taken again, as long as every commit spares the
folders that are pending after it. -/
theorem asset_paths_stay_unique {t : FileTree} {l : Layout} {keep : Bool} {s : Store}
    (hopen : Store.load t l keep = .ok s) {host : Host}
    (hdistinct : (⟨host, s, {}⟩ : Session).assetPaths.Nodup) {x : Session}
    (hrun : SparingRun ⟨host, s, {}⟩ x) : KeepsPaths s x := by
  have hfits := Fits.empty s
  have hfinds := Store.finds_of_load hopen
  have hreserves := hrun.reserves hfits .empty
  have hsingle := hrun.singleHolders hfits hfinds .empty ((nodup_assetPaths_iff hfits).1 hdistinct)
  have hfits' := hrun.run.fits hfits
  have hgrowth := hrun.run.growth hfits
  refine ⟨(nodup_assetPaths_iff hfits').2 hsingle, hreserves, ?_,
    reserves_iff_spares (steps_commitAll hfits') hfits' hreserves⟩
  intro r p id hclass hp hroot hpending hfree hhas
  obtain ⟨holder, hholder⟩ := Option.isSome_iff_exists.1
    (isSome_holder?_of_hasPath (hgrowth.finds hfinds) hreserves hhas)
  refine ⟨holder, stage_duplicatePath hclass hp hroot hpending hfree hholder, ?_⟩
  rcases hasPath_of_holder? hreserves hholder with hsame | ⟨e, he, hid, hne⟩
  · exact Or.inl (hsingle p holder id hsame hhas)
  · exact Or.inr ⟨e, hgrowth.stale he hne, hid, hne⟩

/-! ### A folder whose parent is missing -/

/-- A commit spares the pending folders if no record of another kind names their paths. -/
theorem Staging.spares_of_paths {x y : Session}
    (h : ∀ k ∈ Kind.all, k ≠ .assetFolder → ∀ e ∈ (x.staging.table k).toList,
      ∀ q ∈ (y.staging.table .assetFolder).values,
        e.2.assetPath? = none ∨ e.2.assetPath? ≠ q.assetPath?) : Spares x y := by
  rintro k r p id hk ⟨hr, -⟩ hp ⟨q, hq, hqp⟩
  have hmem : q ∈ (y.staging.table .assetFolder).values :=
    List.mem_map_of_mem ((get?_eq_some_iff _ _ _ _).1 hq)
  rcases h k (Kind.mem_all k) hk _ ((get?_eq_some_iff _ _ _ _).1 hr) q hmem with hnone | hne
  · rw [hp] at hnone
    cases hnone
  · exact hne (hp.trans hqp.symm)

/-- A path whose parent has no folder. -/
def livePath : AssetPath := ⟨["reels", "live"], by decide⟩

/-- An asset folder at this path, which stays pending. -/
def liveFolder (id : ObjectId) : PendingRecord :=
  ⟨({ id := id, objectClass := .assetFolder } : Object).setProperty "assetPath" livePath.text, []⟩

theorem assetPath?_liveFolder (id : ObjectId) : (liveFolder id).assetPath? = some livePath := by
  have hproperty : (liveFolder id).object.property? "assetPath" = some livePath.text := rfl
  have htext : AssetPath.ofString? livePath.text = .ok livePath := by decide +kernel
  unfold PendingRecord.assetPath?
  rw [hproperty]
  dsimp only
  rw [htext]

/-- An event folder that names a path. -/
def signpost (p : AssetPath) : PendingRecord :=
  ⟨(folderIn ⟨"sign", by decide⟩ Store.loft.masters.eventFolder).object.setProperty "assetPath"
    p.text, []⟩

def takes : ObjectId := ⟨"takes", by decide⟩

def retakes : ObjectId := ⟨"retakes", by decide⟩

/-- An asset folder and an event folder are staged. -/
def signed (p : AssetPath) : Session := ⟨Store.loftHost, Store.loft,
  (({} : Staging).add .assetFolder (liveFolder takes) (some livePath)).add .eventFolder (signpost p)
    none⟩

theorem run_signed (p : AssetPath) : SparingRun ⟨Store.loftHost, Store.loft, {}⟩ (signed p) := by
  have hlive := stage_assetFolder (x := ⟨Store.loftHost, Store.loft, {}⟩) (r := liveFolder takes)
    (by decide) (assetPath?_liveFolder takes) (by decide) (by decide +kernel) (by decide +kernel)
    (by decide +kernel)
  exact .restage (.restage .refl (.stage trivial hlive))
    (.stage (k := .eventFolder) (r := signpost p) trivial rfl)

/-- The event folder names the path of the asset folder, and is committed. -/
def freed : Session := commitAll.after (signed livePath)

/-- The commit has set the path free, although the asset folder still has it. So another folder
gets the same path. -/
theorem path_taken_twice :
    Store.load Store.loftFiles Store.loft.layout Store.loft.keepJournals = .ok Store.loft ∧
      (⟨Store.loftHost, Store.loft, {}⟩ : Session).assetPaths.Nodup ∧
      Run (Restaged fun _ _ => True) ⟨Store.loftHost, Store.loft, {}⟩ freed ∧
      ¬ freed.staging.Reserves ∧
      ∃ g, freed.staging.stage freed.store .assetFolder (liveFolder retakes) = .ok g ∧
        ¬ ({ freed with staging := g } : Session).assetPaths.Nodup := by
  -- the commit is run once for all that is asked of it
  obtain ⟨hpending, hfreed, hnew, hunused, hholder, htwice⟩ :
      freed.staging.get? .assetFolder takes = some (liveFolder takes) ∧
        freed.staging.paths.get? livePath = none ∧
        freed.staging.isPending (liveFolder retakes).id = false ∧
        freed.store.containsAny (liveFolder retakes).id = false ∧
        freed.staging.holder? freed.store livePath = none ∧
        ¬ ({ freed with
            staging := freed.staging.add .assetFolder (liveFolder retakes) (some livePath)
          } : Session).assetPaths.Nodup := by
    decide +kernel
  have hstage := stage_assetFolder (by decide) (assetPath?_liveFolder retakes) (by decide) hnew
    hunused hholder
  refine ⟨Store.load_loftFiles, by decide +kernel, (run_signed livePath).run.commit, ?_, _, hstage,
    htwice⟩
  intro hreserves
  rw [(hreserves livePath takes).2 ⟨_, hpending, assetPath?_liveFolder takes⟩] at hfreed
  cases hfreed

/-- The event folder names another path, and is committed. -/
def spared : Session := commitAll.after (signed ⟨["films"], by decide⟩)

theorem asset_paths_stay_unique_spared :
    (⟨Store.loftHost, Store.loft, {}⟩ : Session).assetPaths.Nodup ∧
      SparingRun ⟨Store.loftHost, Store.loft, {}⟩ spared ∧ KeepsPaths Store.loft spared ∧
      spared.staging.get? .eventFolder ⟨"sign", by decide⟩ = none ∧
      spared.staging.stage spared.store .assetFolder (liveFolder retakes) =
        .error (.duplicatePath livePath takes) := by
  have hdistinct : (⟨Store.loftHost, Store.loft, {}⟩ : Session).assetPaths.Nodup := by
    decide +kernel
  have hrun : SparingRun ⟨Store.loftHost, Store.loft, {}⟩ spared :=
    (run_signed _).commit (spares_of_paths (by decide +kernel))
  have hkeeps := asset_paths_stay_unique Store.load_loftFiles hdistinct hrun
  obtain ⟨hgone, hpending, hnew, hunused⟩ :
      spared.staging.get? .eventFolder ⟨"sign", by decide⟩ = none ∧
        spared.staging.get? .assetFolder takes = some (liveFolder takes) ∧
        spared.staging.isPending (liveFolder retakes).id = false ∧
        spared.store.containsAny (liveFolder retakes).id = false := by
    decide +kernel
  obtain ⟨holder, hrefused, rfl | ⟨e, he, -⟩⟩ := hkeeps.refuses _ livePath takes (by decide)
    (assetPath?_liveFolder retakes) (by decide) hnew hunused
    (Or.inr ⟨_, hpending, assetPath?_liveFolder takes⟩)
  · exact ⟨hdistinct, hrun, hkeeps, hgone, hrefused⟩
  · -- no path leads anywhere in the index of the opened project but the root
    have hnone : Store.loft.assetFolderAt? livePath = none := by decide +kernel
    cases hnone.symm.trans he

end AudioProject
