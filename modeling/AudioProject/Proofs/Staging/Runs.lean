import AudioProject.Proofs.Staging.Steps
import AudioProject.Proofs.Store.Loading

/-
  Runs of a session, in which commits take turns with changes to what is staged. To the store a
  run is a sequence of entries, each of which is new and has its parent before it
  (`Store.Growth`). So what holds of the trees of a store after a run follows from one entry, by
  induction on `Growth`.
-/

namespace AudioProject

open Staging

namespace Session

/-- What a caller makes of what is staged: a record that `P` allows is added, or all are
dropped. -/
inductive Restaged (P : Kind → PendingRecord → Prop) (x : Session) : Staging → Prop where
  | stage {k : Kind} {r : PendingRecord} {g : Staging} (allowed : P k r)
    (h : x.staging.stage x.store k r = .ok g) : Restaged P x g
  | discard : Restaged P x x.staging.discardAll.2

/-- Commits, whatever each of them comes to. In between what is staged changes as `R` says, and
the host in all but its files. -/
inductive Run (R : Session → Staging → Prop) (x : Session) : Session → Prop where
  | refl : Run R x x
  | restage {y : Session} {g : Staging} (h : Run R x y) (hg : R y g) :
    Run R x { y with staging := g }
  | outside {y : Session} (h : Run R x y) (host : Host) (hfiles : host.files = y.host.files) :
    Run R x { y with host := host }
  | commit {y : Session} (h : Run R x y) : Run R x (commitAll.after y)

variable {P : Kind → PendingRecord → Prop} {x y : Session}

theorem Restaged.fits {g : Staging} (h : Restaged P x g) (hfits : Fits x.store x.staging) :
    Fits x.store g := by
  cases h with
  | stage _ hstage => exact hfits.stage hstage
  | discard => exact .empty _

/-- What is staged fits the store at every moment of a run. -/
theorem Run.fits (h : Run (Restaged P) x y) (hfits : Fits x.store x.staging) :
    Fits y.store y.staging := by
  induction h with
  | refl => exact hfits
  | restage _ hg ih => exact hg.fits ih
  | outside _ _ _ ih => exact ih
  | commit _ ih => exact Commit.fits_of_steps (steps_commitAll ih) ih

end Session

/-! ## What a run adds to a store -/

/-- Entries come in one after another, each under a new id and below a parent that is there. -/
inductive Store.Growth (s : Store) : Store → Prop where
  | refl : Growth s s
  | insert {s' : Store} {k : Kind} {e : IndexEntry} (h : Growth s s')
    (new : ∀ j, s'.contains j e.id = false)
    (parent : ∀ p, e.parent? = some p → s'.contains k p = true) : Growth s (s'.insert k e)

theorem Store.Growth.trans {s s' s'' : Store} (h : s.Growth s') (h' : s'.Growth s'') :
    s.Growth s'' := by
  induction h' with
  | refl => exact h
  | insert _ new parent ih => exact ih.insert new parent

/-- An entry has the parent of its object. -/
theorem IndexEntry.parent?_of_entry {k : Kind} {r : PendingRecord} {e : IndexEntry} {p : ObjectId}
    (he : ofObject? k r.object = some e) (hp : e.parent? = some p) :
    k ≠ .assetFolder ∧ r.parent? k = some p := by
  obtain ⟨position, hposition, rfl⟩ := Option.map_eq_some_iff.1 he
  cases position with
  | root => cases hp
  | path q => cases hp
  | parent q =>
    cases hp
    unfold position? at hposition
    split at hposition
    · cases k <;> cases hposition
    split at hposition
    · split at hposition
      · next edge hedge =>
        split at hposition
        · next parent hparent =>
          cases hposition
          refine ⟨fun hk => ?_, ?_⟩
          · rw [hk] at hedge
            cases hedge
          · unfold PendingRecord.parent?
            rw [hedge]
            exact hparent
        · cases hposition
      · split at hposition
        · cases hposition
        · split at hposition <;> cases hposition
    · cases hposition

namespace Session

variable {P : Kind → PendingRecord → Prop} {x y : Session}

/-- The parent of a ready record is in the index. -/
theorem contains_of_isReady {s : Store} {k : Kind} {r : PendingRecord} {p : ObjectId}
    (hready : isReady s k r = true) (hk : k ≠ .assetFolder) (hp : r.parent? k = some p) :
    s.contains k p = true := by
  unfold isReady at hready
  rwa [if_neg hk, hp] at hready

theorem growth_of_steps (h : Steps x y) (hfits : Fits x.store x.staging) :
    x.store.Growth y.store := by
  induction h with
  | refl => exact .refl
  | idle _ last ih =>
    rw [last.store]
    exact ih
  | @write y z k r before last ih =>
    obtain ⟨e, he, hstore⟩ := last.entry
    rw [hstore]
    refine ih.insert (fun j => ?_) (fun p hp => ?_)
    · rw [IndexEntry.id_ofObject? he]
      exact (Commit.fits_of_steps before hfits).fresh k r.id r last.pending j
    · obtain ⟨hk, hparent⟩ := IndexEntry.parent?_of_entry he hp
      exact contains_of_isReady last.ready hk hparent

theorem Run.growth (h : Run (Restaged P) x y) (hfits : Fits x.store x.staging) :
    x.store.Growth y.store := by
  induction h with
  | refl => exact .refl
  | restage _ _ ih => exact ih
  | outside _ _ _ ih => exact ih
  | commit before ih => exact ih.trans (growth_of_steps (steps_commitAll (before.fits hfits))
      (before.fits hfits))

end Session

end AudioProject
