import AudioProject.Proofs.Journal.Writing
import AudioProject.Proofs.Staging.Outcomes
import AudioProject.Proofs.Staging.ParentFirst
import AudioProject.Proofs.Staging.Runs

/-
  What staging accepts can be committed, but for one class. A record that was staged has an entry,
  and its class has a directory for documents unless it is the class of the master bus
  (`directory?_of_accepts`). So only a document in its place or a failing file system keeps it from
  being committed (`commit_eq`), and what a commit leaves over it leaves for an unresolved parent
  or for one of these (`commitAll_leaves`). A master bus is accepted as well if it has an output,
  but no commit writes it, and none comes through while it is pending (`ne_ok_of_masterBus`).
-/

namespace AudioProject

open FileTree

/-! ## Classes -/

/-- Of the classes that belong to a kind all but that of the master bus have documents. -/
theorem directory?_of_accepts {k : Kind} {c : ObjectClass} (h : k.accepts c = true)
    (hc : c ≠ .mixerMaster) : ∃ dir, c.directory? = some dir := by
  have hkind : c.kind? = some k := of_decide_eq_true h
  cases c <;> first | exact ⟨_, rfl⟩ | exact absurd rfl hc | cases hkind

namespace Staging

variable {g g' : Staging} {s s' : Store} {k : Kind} {r : PendingRecord} {t t' : FileTree}
  {x : Session} {host : Host}

/-! ## One record -/

theorem Admitted.objectPath? (h : Admitted k r) (hclass : r.object.objectClass ≠ .mixerMaster)
    (l : Layout) : ∃ path, l.objectPath? r.object.objectClass r.id = some path := by
  obtain ⟨dir, hdir⟩ := directory?_of_accepts h.accepts hclass
  unfold Layout.objectPath?
  rw [hdir]
  exact ⟨_, rfl⟩

/-- What comes of committing a record, in whichever store. -/
theorem commit_eq (h : Admitted k r) (hclass : r.object.objectClass ≠ .mixerMaster) (s : Store)
    (t : FileTree) : ∃ e path, IndexEntry.ofObject? k r.object = some e ∧
      s.layout.objectPath? r.object.objectClass r.id = some path ∧
      s.commit k r.objects t =
        if t.has path then .error (.alreadyExists r.id) t
        else match Store.writeFile path (s.documentBytes r.objects) t with
          | .ok () t' => .ok (s.insert k e, path) t'
          | .error e t' => .error e t' := by
  obtain ⟨e, he, -⟩ := PendingRecord.exists_entry h.accepts h.placed
  obtain ⟨path, hpath⟩ := h.objectPath? hclass s.layout
  refine ⟨e, path, he, hpath, ?_⟩
  unfold PendingRecord.objects
  rw [Store.commit_of_entry he, Store.writeDocument_of_path hpath]
  by_cases hhas : t.has path = true
  · rw [if_pos hhas, if_pos hhas]
    rfl
  · rw [if_neg hhas, if_neg hhas]
    cases Store.writeFile path (s.documentBytes (r.object :: r.siblings)) t <;> rfl

/-- The commit of a record in a store comes through if the place of its document is free and the
file system works, and fails for one of these only. -/
structure Committable (s : Store) (k : Kind) (r : PendingRecord) (t : FileTree) (e : IndexEntry)
    (path : Path) : Prop where
  entry : IndexEntry.ofObject? k r.object = some e
  place : s.layout.objectPath? r.object.objectClass r.id = some path
  commits : ∀ t', t.has path = false → Store.FilesWork path (s.documentBytes r.objects) t t' →
    s.commit k r.objects t = .ok (s.insert k e, path) t'
  fails : ∀ e t', s.commit k r.objects t = .error e t' →
    (e = .alreadyExists r.id ∧ t.has path = true ∧ t' = t) ∨
      (∃ p e', e = .file p e') ∧ t.has path = false ∧
        ¬ ∃ t'', Store.FilesWork path (s.documentBytes r.objects) t t''

theorem exists_committable (h : Admitted k r) (hclass : r.object.objectClass ≠ .mixerMaster)
    (s : Store) (t : FileTree) : ∃ e path, Committable s k r t e path := by
  obtain ⟨e, path, he, hpath, hcommit⟩ := commit_eq h hclass s t
  have hcommits : ∀ t', t.has path = false →
      Store.FilesWork path (s.documentBytes r.objects) t t' →
      s.commit k r.objects t = .ok (s.insert k e, path) t' := by
    intro t' hhas hwork
    rw [hcommit, hhas, if_neg Bool.false_ne_true, Store.writeFile_eq_ok_iff.2 hwork]
  refine ⟨e, path, he, hpath, hcommits, fun err t' herr => ?_⟩
  cases hhas : t.has path with
  | true =>
    rw [hcommit, hhas, if_pos rfl] at herr
    cases herr
    exact Or.inl ⟨rfl, rfl, rfl⟩
  | false =>
    refine Or.inr ⟨?_, rfl, fun ⟨t'', hwork⟩ => ?_⟩
    · rw [hcommit, hhas, if_neg Bool.false_ne_true] at herr
      cases hwrite : Store.writeFile path (s.documentBytes r.objects) t with
      | ok u t'' =>
        rw [hwrite] at herr
        cases herr
      | error e' t'' =>
        rw [hwrite] at herr
        cases herr
        exact Store.error_of_writeFile hwrite
    · rw [hcommits t'' hhas hwork] at herr
      cases herr

/-- A master bus with an output is accepted as a bus, and then it cannot be committed. -/
theorem commit_masterBus (h : Admitted k r) (hclass : r.object.objectClass = .mixerMaster)
    (s : Store) (t : FileTree) : s.commit k r.objects t =
      .error (.invalid (.noDocumentFor .mixerMaster)) t := by
  obtain ⟨e, he, -⟩ := PendingRecord.exists_entry h.accepts h.placed
  have hpath : s.layout.objectPath? r.object.objectClass r.object.id = none := by
    unfold Layout.objectPath?
    rw [hclass]
    rfl
  unfold PendingRecord.objects
  rw [Store.commit_of_entry he, Store.writeDocument_of_no_path hpath, hclass]

/-! ## A whole commit -/

/-- Why a commit that ended in the session `y` left records over. -/
inductive Excuse (y : Session) : Error → Prop where
  /-- None of the records of a kind has its parent committed. -/
  | unresolved {k : Kind} {ids : List ObjectId} {counts : Counts} (left : y.staging.ids k = ids)
    (parents : ∀ id r, y.staging.get? k id = some r → isReady y.store k r = false) :
    Excuse y (.unresolved k ids counts)
  /-- Where the document of a pending record should be there is one. -/
  | taken {k : Kind} {r : PendingRecord} {path : Path} (pending : y.staging.get? k r.id = some r)
    (hpath : y.store.layout.objectPath? r.object.objectClass r.id = some path)
    (hhas : y.host.files.has path = true) : Excuse y (.store (.alreadyExists r.id))
  | document (path : Path) (e : FileError) : Excuse y (.store (.file path e))
  | journal (e : FileError) : Excuse y (.journal (.file e))

/-- No master bus is pending. -/
def HasDocuments (g : Staging) : Prop :=
  ∀ k id r, g.get? k id = some r → r.object.objectClass ≠ .mixerMaster

theorem HasDocuments.take (h : g.HasDocuments) (k : Kind) (r : PendingRecord) :
    (g.take k r).HasDocuments := by
  intro j id q hq
  rw [get?_take] at hq
  split at hq
  · cases hq
  · exact h j id q hq

namespace Commit

variable {c c' : Commit} {e : Error}

/-- A commit ended with an error, whatever was unresolved, or had an excuse. -/
def Ended (e : Error) (_ : List Session) (c : Commit) : Prop :=
  (∃ k ids counts, e = .unresolved k ids counts) ∨ Excuse c.toSession e

theorem excuse_of_append {d : Journal.Deed} (h : append d c = .error e c') :
    Excuse c'.toSession e := by
  obtain ⟨e', _, hsave, rfl, -⟩ :=
    Action.within_eq_error.1 (show onHost Error.journal _ _ = _ from h)
  obtain ⟨⟨e'', rfl⟩, -⟩ := Journal.save_eq_error hsave
  exact .journal e''

theorem excuse_of_close {p : Journal.Phase} (h : close p c = .error e c') :
    Excuse c'.toSession e := by
  obtain ⟨e', _, hclose, rfl, -⟩ :=
    Action.within_eq_error.1 (show onHost Error.journal _ _ = _ from h)
  obtain ⟨e'', rfl⟩ := Journal.close_eq_error hclose
  exact .journal e''

/-- What keeps a record from being committed is an excuse. -/
theorem excuse_of_commitRecord (hadmitted : Admitted k r)
    (hclass : r.object.objectClass ≠ .mixerMaster) (hpending : c.staging.get? k r.id = some r)
    (h : commitRecord k r c = .error e c') : Excuse c'.toSession e := by
  unfold commitRecord at h
  rcases Action.bind_eq_error.1 h with h | ⟨path, c₁, -, h⟩
  · obtain ⟨e', t, rfl, hcommit, rfl⟩ := write_fails h
    obtain ⟨_, path, hcommittable⟩ := exists_committable hadmitted hclass c.store c.host.files
    rcases hcommittable.fails e' t hcommit with ⟨rfl, hhas, rfl⟩ | ⟨⟨p, e'', rfl⟩, -⟩
    · exact .taken hpending hcommittable.place hhas
    · exact .document p e''
  rcases Action.bind_eq_error.1 h with h | ⟨_, c₂, hmodify, h⟩
  · cases h
  rcases Action.bind_eq_error.1 h with h | ⟨_, c₃, -, h⟩
  · exact excuse_of_append h
  · cases h

theorem guards_excuse :
    Guards (fun _ c => c.staging.Sound ∧ c.staging.HasDocuments) Ended where
  keyed h := h.1.keyed
  record := by
    rintro xs c k r ⟨hsound, hdocuments⟩ hpending hready
    cases h : commitRecord k r c with
    | ok u c' =>
      have hwrote := (commitRecord_eq_ok hpending hready h).1
      show c'.staging.Sound ∧ c'.staging.HasDocuments
      rw [hwrote.staging]
      exact ⟨hsound.take hpending, hdocuments.take k r⟩
    | error e c' =>
      exact Or.inr (excuse_of_commitRecord (hsound.admitted k r.id r hpending)
        (hdocuments k r.id r hpending) hpending h)
  stop := by
    intro xs c _
    cases h : close .incomplete c with
    | ok u c' => exact fun k ids => Or.inl ⟨k, ids, _, rfl⟩
    | error e c' => exact Or.inr (excuse_of_close h)

end Commit

open Session Store

/-- A session whose staged records all have documents keeps it so. -/
theorem HasDocuments.of_steps {x y : Session} (h : Steps x y) (hx : x.staging.HasDocuments) :
    y.staging.HasDocuments := by
  induction h with
  | refl => exact hx
  | idle _ last ih =>
    rw [last.staging]
    exact ih
  | write _ last ih =>
    rw [last.staging]
    exact ih.take _ _

theorem HasDocuments.stage (h : g.HasDocuments) (hclass : r.object.objectClass ≠ .mixerMaster)
    (hstage : g.stage s k r = .ok g') : g'.HasDocuments := by
  obtain ⟨-, -, -, path, rfl, -⟩ := stage_eq_ok hstage
  intro j id q hq
  rw [get?_add] at hq
  split at hq
  · rw [← Option.some.inj hq]
    exact hclass
  · exact h j id q hq

theorem HasDocuments.empty : ({} : Staging).HasDocuments := by
  intro k id r hr
  rw [get?_empty] at hr
  cases hr

theorem hasDocuments_of_run
    (h : Run (Restaged fun _ r => r.object.objectClass ≠ .mixerMaster) ⟨host, s, {}⟩ x) :
    x.staging.HasDocuments := by
  induction h with
  | refl => exact .empty
  | restage _ hg ih =>
    cases hg with
    | stage allowed hstage => exact ih.stage allowed hstage
    | discard => exact .empty
  | outside _ _ _ ih => exact ih
  | commit before ih => exact ih.of_steps (steps_commitAll (before.fits (.empty s)))

theorem ids_eq_nil_of_commitAll {counts : Counts} {y : Session} (hfits : Fits x.store x.staging)
    (h : commitAll x = .ok counts y) : Steps x y ∧ ∀ k, y.staging.ids k = [] := by
  have hsteps := steps_commitAll hfits
  rw [Action.after_of_ok h] at hsteps
  refine ⟨hsteps, ?_⟩
  by_cases hsize : x.staging.size = 0
  · rw [commitAll_of_empty hsize] at h
    cases h
    exact hfits.ids_eq_nil_of_size hsize
  cases hrun : Commit.run (Commit.start x) with
  | ok u c =>
    rw [commitAll_of_ok hsize hrun] at h
    cases h
    exact (Commit.run_eq_ok hfits hrun).2
  | error e c =>
    rw [commitAll_of_error hsize hrun] at h
    cases h

/-- A commit that comes through leaves nothing over, and one that fails has an excuse. -/
theorem commitAll_leaves (hfits : Fits x.store x.staging) (hdocuments : x.staging.HasDocuments) :
    (∀ counts y, commitAll x = .ok counts y → y.staging = {}) ∧
      ∀ e y, commitAll x = .error e y → Excuse y e := by
  constructor
  · intro counts y h
    obtain ⟨hsteps, hnil⟩ := ids_eq_nil_of_commitAll hfits h
    exact eq_empty_of_ids (Commit.fits_of_steps hsteps hfits) hnil
  · intro e y h
    have hsize : x.staging.size ≠ 0 := by
      intro hsize
      rw [commitAll_of_empty hsize] at h
      cases h
    cases hrun : Commit.run (Commit.start x) with
    | ok u c =>
      rw [commitAll_of_ok hsize hrun] at h
      cases h
    | error e' c =>
      rw [commitAll_of_error hsize hrun] at h
      cases h
      have hended : Commit.Meets (fun _ _ => True) Commit.Ended
          ([] ++ Commit.runTrail (Commit.start x)) (Commit.run (Commit.start x)) := by
        refine Commit.guards_excuse.run (fun {xs c} _ => ?_) ⟨hfits.toSound, hdocuments⟩
        cases hclose : Commit.close .committed c with
        | ok u c' => exact trivial
        | error e c' => exact Or.inr (Commit.excuse_of_close hclose)
      rw [hrun] at hended
      rcases Commit.run_eq_error hfits hrun with hwrite | ⟨front, k, back, -, -, hstuck, -⟩
      · rcases hended with ⟨k, ids, counts, rfl⟩ | hexcuse
        · cases hwrite
        · exact hexcuse
      · rw [hstuck.error]
        exact .unresolved rfl hstuck.not_ready

/-- A master bus is never written, so it stays pending. -/
theorem get?_of_masterBus {x y : Session} (h : Steps x y) {id : ObjectId}
    (hr : x.staging.get? k id = some r) (hclass : r.object.objectClass = .mixerMaster) :
    y.staging.get? k id = some r := by
  induction h with
  | refl => exact hr
  | idle _ last ih =>
    rw [last.staging]
    exact ih
  | @write y z j q _ last ih =>
    rw [last.staging, get?_take, if_neg]
    · exact ih
    rintro ⟨rfl, rfl⟩
    obtain rfl := Option.some.inj (last.pending.symm.trans ih)
    obtain ⟨path, hpath, -⟩ := last.document
    rw [hclass] at hpath
    cases hpath

/-- While one is pending no commit comes through. -/
theorem ne_ok_of_masterBus (hfits : Fits x.store x.staging) {id : ObjectId}
    (hr : x.staging.get? k id = some r) (hclass : r.object.objectClass = .mixerMaster)
    (counts : Counts) (y : Session) : commitAll x ≠ .ok counts y := by
  intro h
  obtain ⟨hsteps, hnil⟩ := ids_eq_nil_of_commitAll hfits h
  have hpending := get?_of_masterBus hsteps hr hclass
  rw [get?_eq_none_of_ids (hnil k)] at hpending
  cases hpending

/-- What staging accepts can be committed, unless its class is that of the master bus: then it
never can. So a commit leaves records over for an unresolved parent, a document in the way or a
failing file system only. -/
theorem accepted_commits (s : Store) :
    (∀ g g' k r, stage g s k r = .ok g' → r.object.objectClass ≠ .mixerMaster →
      ∀ s' t, ∃ e path, Committable s' k r t e path) ∧
    (∀ g g' k r, stage g s k r = .ok g' → r.object.objectClass = .mixerMaster →
      ∀ (s' : Store) t,
        s'.commit k r.objects t = .error (.invalid (.noDocumentFor .mixerMaster)) t) ∧
    (∀ host x, Run (Restaged fun _ r => r.object.objectClass ≠ .mixerMaster) ⟨host, s, {}⟩ x →
      (∀ counts y, commitAll x = .ok counts y → y.staging = {}) ∧
        ∀ e y, commitAll x = .error e y → Excuse y e) ∧
    (∀ host x, Run (Restaged fun _ _ => True) ⟨host, s, {}⟩ x → ∀ k id r,
      x.staging.get? k id = some r → r.object.objectClass = .mixerMaster →
        ∀ counts y, commitAll x ≠ .ok counts y) := by
  refine ⟨?_, ?_, ?_, ?_⟩
  · intro g g' k r hstage hclass
    exact exists_committable (stage_eq_ok hstage).1 hclass
  · intro g g' k r hstage hclass
    exact commit_masterBus (stage_eq_ok hstage).1 hclass
  · intro host x hrun
    exact commitAll_leaves (hrun.fits (.empty s)) (hasDocuments_of_run hrun)
  · intro host x hrun k id r hr hclass
    exact ne_ok_of_masterBus (hrun.fits (.empty s)) hr hclass

/-- The outer folder is accepted, and its document can be written in the loft. -/
theorem accepted_commits_outer :
    stage {} loft .eventFolder outer = .ok (({} : Staging).add .eventFolder outer none) ∧
      ∃ e path t', Store.FilesWork path (loft.documentBytes outer.objects) loftFiles t' ∧
        loft.commit .eventFolder outer.objects loftFiles =
          .ok (loft.insert .eventFolder e, path) t' := by
  have hstage : stage {} loft .eventFolder outer =
      .ok (({} : Staging).add .eventFolder outer none) := rfl
  obtain ⟨e, path, hcommittable⟩ :=
    (accepted_commits loft).1 _ _ _ _ hstage (by decide) loft loftFiles
  have hruns : Action.isOk (loft.commit .eventFolder outer.objects loftFiles) = true := by
    decide +kernel
  obtain ⟨⟨s', path'⟩, t', hcommit⟩ := Action.isOk_iff.1 hruns
  obtain ⟨-, -, -, hwrite⟩ := Store.commit_eq_ok hcommit
  obtain ⟨hpath, hhas, hfile⟩ := Store.writeDocument_eq_ok hwrite
  obtain rfl := Option.some.inj (hcommittable.place.symm.trans hpath)
  have hwork := Store.writeFile_eq_ok_iff.1 hfile
  exact ⟨hstage, e, path, t', hwork, hcommittable.commits t' hhas hwork⟩

/-! ### A second master bus -/

/-- A bus that leads to the master bus, and is of the same class. -/
def second : PendingRecord :=
  ⟨({ id := ⟨"second", by decide⟩, objectClass := .mixerMaster } : Object).setEdge "output"
    [loft.masterBus], []⟩

/-- It is accepted, and ready, as the master bus is committed. No document has its id, as there is
no directory for its class; but on no tree can it be committed. -/
theorem second_is_never_committed :
    stage {} loft .bus second = .ok (({} : Staging).add .bus second none) ∧
      isReady loft .bus second = true ∧
      loft.layout.objectPath? second.object.objectClass second.id = none ∧
      ∀ t, loft.commit .bus second.objects t =
        .error (.invalid (.noDocumentFor .mixerMaster)) t := by
  have hstage : stage {} loft .bus second = .ok (({} : Staging).add .bus second none) := rfl
  exact ⟨hstage, by decide +kernel, rfl, commit_masterBus (stage_eq_ok hstage).1 rfl loft⟩

end Staging

end AudioProject
