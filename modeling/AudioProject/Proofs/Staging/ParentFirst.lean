import AudioProject.Proofs.Staging.Runs
import AudioProject.Proofs.Staging.Trail
import AudioProject.Proofs.Store.OnDisk

/-
  Parents come before their children, on the disk as in the index. What is in the index of a
  session is on the disk (`Backed`): so it is when the project is opened, and a link of a trail
  keeps it. So the parent that makes a record ready is on the disk when the record is written, and
  no later moment of the commit takes it away (`parent_first`).
-/

namespace AudioProject

open FileTree Store Staging

namespace Session

variable {base : Location} {x y : Session} {k : Kind} {r : PendingRecord} {e : IndexEntry}

/-! ## What is stored -/

/-- The id is in the index of the kind, and its entry is that of an object on the disk. -/
structure Stored (x : Session) (k : Kind) (e : IndexEntry) : Prop where
  indexed : x.store.contains k e.id = true
  onDisk : OnDisk x.host.files x.store.layout k e

/-- The parent of a record, if it has one, is committed and on the disk. -/
def ParentStored (x : Session) (k : Kind) (r : PendingRecord) : Prop :=
  if k = .assetFolder then
    ∃ p, r.assetPath?.bind AssetPath.parent? = some p ∧
      (p.isRoot = true ∨ ∃ e, e.assetPath? = some p ∧ x.Stored k e)
  else ∀ parent, r.parent? k = some parent → ∃ e, e.id = parent ∧ x.Stored k e

/-- No link takes contents away. -/
theorem Link.documents (h : Link base x y) :
    Keeps (IsContent x.host.files) x.host.files y.host.files := by
  cases h with
  | idle h => exact h.documents.mono fun _ hj => hj.1
  | placed h _ =>
    obtain ⟨dir, -, -, hcomes⟩ := h.document
    exact hcomes.keeps

theorem Trail.documents {xs : List Session} (h : Trail base x xs y) :
    Keeps (IsContent x.host.files) x.host.files y.host.files :=
  h.keeps (P := fun z => Keeps (IsContent x.host.files) x.host.files z.host.files)
    (fun hlink _ hz => hz.trans (hlink.documents.mono fun _ hj => hj.keeps hz)) (.refl _ _)

theorem Link.contains (h : Link base x y) {id : ObjectId} (hid : x.store.contains k id = true) :
    y.store.contains k id = true := by
  cases h with
  | idle h =>
    rw [h.store]
    exact hid
  | placed h _ =>
    obtain ⟨e, -, hstore⟩ := h.entry
    rw [hstore, contains_insert, hid, Bool.or_true]

theorem Stored.link (h : x.Stored k e) (hlink : Link base x y) : y.Stored k e where
  indexed := hlink.contains h.indexed
  onDisk := by
    rw [hlink.layout]
    exact h.onDisk.keeps hlink.documents

theorem ParentStored.link (h : ParentStored x k r) (hlink : Link base x y) :
    ParentStored y k r := by
  unfold ParentStored at h ⊢
  split
  · next hk =>
    rw [if_pos hk] at h
    obtain ⟨p, hp, hroot | ⟨e, he, hstored⟩⟩ := h
    · exact ⟨p, hp, Or.inl hroot⟩
    · exact ⟨p, hp, Or.inr ⟨e, he, hstored.link hlink⟩⟩
  · next hk =>
    rw [if_neg hk] at h
    intro parent hparent
    obtain ⟨e, he, hstored⟩ := h parent hparent
    exact ⟨e, he, hstored.link hlink⟩

/-- The document of a record that was written has all its objects. -/
theorem Placed.reads (h : Placed base k r x y) (hy : AnchoredAt base y) {dir : String}
    (hdir : r.object.objectClass.directory? = some dir) :
    readDocument y.host.files ((y.store.layout.documentDir dir).join r.id.fileName) =
      .ok ⟨x.store.model, r.objects.map Object.named⟩ := by
  obtain ⟨e, -, hstore⟩ := h.entry
  obtain ⟨dir', hdir', hproper, hcomes⟩ := h.document
  obtain rfl : dir = dir' := Option.some.inj (hdir.symm.trans hdir')
  have hlayout : y.store.layout = x.store.layout := by
    rw [hstore]
    rfl
  refine readDocument_written ((read_document hy (isDocumentDir_of_directory hdir)
    (isXml_fileName r.id)).2 ⟨?_, hcomes.content⟩)
  rw [hlayout]
  exact hproper

/-- A record that was written is stored. -/
theorem Placed.stored (h : Placed base k r x y) (hy : AnchoredAt base y) :
    ∃ e, IndexEntry.ofObject? k r.object = some e ∧ y.store = x.store.insert k e ∧
      y.Stored k e := by
  obtain ⟨e, he, hstore⟩ := h.entry
  obtain ⟨dir, hdir, -, -⟩ := h.document
  refine ⟨e, he, hstore, ?_, ?_⟩
  · rw [hstore, contains_insert]
    simp
  · refine ⟨_, _, r.object, .document (IndexEntry.directory_mem he hdir) (isXml_fileName r.id),
      h.reads hy hdir, ?_, he⟩
    -- the document gives back the object itself, as its class is known
    exact List.mem_map.2 ⟨r.object, List.mem_cons_self, IndexEntry.named_of_ofObject? he⟩

/-! ## The index is on the disk -/

/-- All of the index is on the disk, the paths of asset folders included. -/
structure Backed (base : Location) (x : Session) : Prop where
  anchored : AnchoredAt base x
  ids : ∀ k id, x.store.contains k id = true → ∃ e, e.id = id ∧ x.Stored k e
  paths : ∀ p, (x.store.assetFolderAt? p).isSome = true →
    ∃ e, e.assetPath? = some p ∧ x.Stored .assetFolder e

theorem Backed.link (h : Backed base x) (hlink : Link base x y) (hy : AnchoredAt base y) :
    Backed base y where
  anchored := hy
  ids := by
    intro j id hid
    have hold : x.store.contains j id = true → ∃ e, e.id = id ∧ y.Stored j e := by
      intro hid
      obtain ⟨e, he, hstored⟩ := h.ids j id hid
      exact ⟨e, he, hstored.link hlink⟩
    cases hlink with
    | idle hidle =>
      rw [hidle.store] at hid
      exact hold hid
    | placed hplaced _ =>
      obtain ⟨e, -, hstore, hstored⟩ := hplaced.stored hy
      rw [hstore, contains_insert, Bool.or_eq_true, decide_eq_true_iff] at hid
      rcases hid with ⟨rfl, hid⟩ | hid
      · exact ⟨e, hid, hstored⟩
      · exact hold hid
  paths := by
    intro p hp
    have hold : (x.store.assetFolderAt? p).isSome = true →
        ∃ e, e.assetPath? = some p ∧ y.Stored .assetFolder e := by
      intro hp
      obtain ⟨e, he, hstored⟩ := h.paths p hp
      exact ⟨e, he, hstored.link hlink⟩
    cases hlink with
    | idle hidle =>
      rw [hidle.store] at hp
      exact hold hp
    | placed hplaced _ =>
      obtain ⟨e, -, hstore, hstored⟩ := hplaced.stored hy
      rw [hstore, assetFolderAt?_insert, Bool.or_eq_true, decide_eq_true_iff] at hp
      rcases hp with ⟨rfl, hp⟩ | hp
      · exact ⟨e, hp, hstored⟩
      · exact hold hp

/-- What is staged does not matter, nor does the host besides its files. -/
theorem Backed.congr (h : Backed base x) (hstore : y.store = x.store)
    (hfiles : y.host.files = x.host.files) : Backed base y := by
  have hstored : ∀ {k e}, x.Stored k e → y.Stored k e := by
    rintro k e ⟨hindexed, hdisk⟩
    exact ⟨hstore ▸ hindexed, by rwa [hstore, hfiles]⟩
  refine ⟨?_, fun k id hid => ?_, fun p hp => ?_⟩
  · unfold AnchoredAt
    rw [hstore, hfiles]
    exact h.anchored
  · obtain ⟨e, he, h⟩ := h.ids k id (hstore ▸ hid)
    exact ⟨e, he, hstored h⟩
  · obtain ⟨e, he, h⟩ := h.paths p (hstore ▸ hp)
    exact ⟨e, he, hstored h⟩

/-- What is known of an opened project is on the disk. -/
theorem backed_of_load {host : Host} {l : Layout} {keep : Bool} {s : Store}
    (hopen : load host.files l keep = .ok s) (hwell : host.files.WellFormed) :
    ∃ base, Backed base ⟨host, s, {}⟩ := by
  obtain ⟨rfl, -, c, hholds, hpresents⟩ := load_eq_ok_iff.1 hopen
  obtain ⟨base, hanchored⟩ := exists_anchored hwell hholds
  refine ⟨base, hanchored, fun k id hid => ?_, fun p hp => ?_⟩
  · obtain ⟨e, rfl, hdisk⟩ := exists_onDisk hanchored hholds hpresents hid
    exact ⟨e, rfl, hid, hdisk⟩
  · obtain ⟨e, hpath, hin, hdisk⟩ := exists_onDisk_at hanchored hholds hpresents
      (assetFolderAt?_isSome _ p ▸ hp)
    exact ⟨e, hpath, hin, hdisk⟩

/-- Commits keep the index on the disk, whatever is staged in between. -/
theorem Run.backed (h : Run (fun _ g => g.IsKeyed) x y) (hx : Backed base x)
    (hkeyed : x.staging.IsKeyed) : Backed base y ∧ y.staging.IsKeyed := by
  induction h with
  | refl => exact ⟨hx, hkeyed⟩
  | restage _ hg ih => exact ⟨ih.1.congr rfl rfl, hg⟩
  | outside _ _ hfiles ih => exact ⟨ih.1.congr rfl hfiles, ih.2⟩
  | commit _ ih =>
    have htrail := trail_commitAll ih.1.anchored ih.2
    exact ⟨htrail.keeps (P := Backed base) (fun hlink hy h => h.link hlink hy) ih.1,
      htrail.keyed ih.2⟩

/-- The parent of a ready record is stored. -/
theorem Backed.parentStored (h : Backed base x) (hready : isReady x.store k r = true) :
    ParentStored x k r := by
  unfold isReady at hready
  unfold ParentStored
  split
  · next hk =>
    rw [if_pos hk] at hready
    split at hready
    · next p hp =>
      rcases Bool.or_eq_true_iff.1 hready with hroot | hat
      · exact ⟨p, hp, Or.inl hroot⟩
      · obtain ⟨e, he, hstored⟩ := h.paths p hat
        exact ⟨p, hp, Or.inr ⟨e, he, hk ▸ hstored⟩⟩
    · cases hready
  · next hk =>
    rw [if_neg hk] at hready
    intro parent hparent
    rw [hparent] at hready
    exact h.ids k parent hready

/-! ## Moments -/

/-- A record is written at the moment `u`: its parent is stored there already and stays so, as does
the record itself, and nothing of an earlier kind is pending any more. -/
structure WrittenAfterParent (k : Kind) (r : PendingRecord) (u : Session) (later : List Session) :
    Prop where
  parent : ∀ w ∈ u :: later, ParentStored w k r
  record : ∃ e, IndexEntry.ofObject? k r.object = some e ∧ ∀ w ∈ later, w.Stored k e
  earlier : ∀ w ∈ u :: later, ∀ j : Kind, j.rank < k.rank → w.staging.ids j = []

end Session

open Session

/-- At every moment of a commit that follows on any run since the project was opened, and however
the commit ends, either no document changes, or the document of one record comes whose parent was
committed and on the disk before, where it stays. -/
theorem parent_first {host : Host} {l : Layout} {keep : Bool} {s : Store}
    (hopen : load host.files l keep = .ok s) (hwell : host.files.WellFormed) {x : Session}
    (hrun : Run (fun _ g => g.IsKeyed) ⟨host, s, {}⟩ x) :
    (x :: trail x).getLast? = some (commitAll.after x) ∧
      ∃ base, x.host.files.walk x.store.layout.root = .ok base ∧
        ∀ front u v back, x :: trail x = front ++ u :: v :: back →
          Idle u v ∨ ∃ k r, Placed base k r u v ∧ WrittenAfterParent k r u (v :: back) := by
  obtain ⟨base, hfirst⟩ := backed_of_load hopen hwell
  obtain ⟨hbacked, hkeyed⟩ := hrun.backed hfirst (Fits.empty s).keyed
  have htrail := trail_commitAll hbacked.anchored hkeyed
  refine ⟨htrail.getLast, base, hbacked.anchored.root, fun front u v back hsplit => ?_⟩
  · obtain ⟨⟨ys, hys⟩, hlink, hv, hback⟩ := htrail.split hsplit
    have hu : Backed base u := hys.keeps (fun hlink hy h => h.link hlink hy) hbacked
    cases hlink with
    | idle h => exact Or.inl h
    | @placed k r h hearlier =>
      have hlink : Link base u v := .placed h hearlier
      obtain ⟨e, he, -, hstored⟩ := h.stored hv
      have hparent := hu.parentStored h.ready
      refine Or.inr ⟨k, r, h, ?_, ⟨e, he, ?_⟩, ?_⟩
      · refine (Trail.cons hlink hv hback).forall_mem (fun hlink _ h => h.link hlink) hparent
      · exact hback.forall_mem (fun hlink _ h => h.link hlink) hstored
      · refine (Trail.cons hlink hv hback).forall_mem (P := fun w => ∀ j : Kind, j.rank < k.rank →
          w.staging.ids j = []) (fun hlink _ h j hj => ?_) hearlier
        have hsublist := hlink.ids_sublist j
        rw [h j hj] at hsublist
        exact List.sublist_nil.1 hsublist

/-! ### A folder that is staged before its parent -/

def outer : PendingRecord := folderIn ⟨"outer", by decide⟩ loft.masters.eventFolder

def inner : PendingRecord := folderIn ⟨"inner", by decide⟩ outer.id

def nested : Session :=
  ⟨loftHost, loft, (({} : Staging).add .eventFolder inner none).add .eventFolder outer none⟩

theorem run_nested : Run (fun _ g => g.IsKeyed) ⟨loftHost, loft, {}⟩ nested := by
  have hinner : (({} : Staging).add .eventFolder inner none).IsKeyed :=
    IsKeyed.stage (s := loft) (k := .eventFolder) (r := inner) (Fits.empty loft).keyed rfl
  have houter : nested.staging.IsKeyed :=
    IsKeyed.stage (s := loft) (k := .eventFolder) (r := outer) hinner rfl
  exact .restage .refl houter

theorem parent_first_nested : loftHost.files.WellFormed ∧
    Run (fun _ g => g.IsKeyed) ⟨loftHost, loft, {}⟩ nested ∧
      ∃ base front u v back k r, nested :: trail nested = front ++ u :: v :: back ∧
        Placed base k r u v ∧ WrittenAfterParent k r u (v :: back) := by
  have hopen : load loftHost.files loft.layout loft.keepJournals = .ok loft := load_loftFiles
  obtain ⟨-, base, -, hmoments⟩ := parent_first hopen wellFormed_loftFiles run_nested
  have hpending : (trail nested).map (fun z => (z.staging.ids .eventFolder).length) =
      [2, 1, 1, 0, 0, 0] := by decide +kernel
  generalize htrail : trail nested = moments at hpending
  cases moments with
  | nil => cases hpending
  | cons u moments =>
    cases moments with
    | nil => cases (List.cons.inj hpending).2
    | cons v back =>
      obtain ⟨hu, hrest⟩ := List.cons.inj hpending
      have hu : (u.staging.ids .eventFolder).length = 2 := hu
      have hv : (v.staging.ids .eventFolder).length = 1 := (List.cons.inj hrest).1
      rcases hmoments [nested] u v back (congrArg _ htrail) with hidle | ⟨k, r, hplaced, hwritten⟩
      · rw [hidle.staging, hu] at hv
        cases hv
      · exact ⟨wellFormed_loftFiles, run_nested, base, [nested], u, v, back, k, r, rfl, hplaced,
          hwritten⟩

end AudioProject
