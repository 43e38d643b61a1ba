import AudioProject.Proofs.Staging.Conservation

/-
  Which records a commit can commit. `Settles` is the least set that is closed under readiness: a
  record is in it when it needs no parent or its parent is committed, and when its parent is in it.
  In the middle of a commit a record is ready exactly if it needs no parent, or its parent was
  committed before or since (`isReady_of_steps`). So only records of the set are committed
  (`settles_of_gone`), and once no pending record is ready all of the set are
  (`gone_of_settles`).
-/

namespace AudioProject.Staging

open Session

/-! ## The records that settle -/

/-- The parent of a record, if it has any, is committed. -/
def Grounded (s : Store) (k : Kind) (r : PendingRecord) : Prop :=
  if k = .assetFolder then
    ∃ p, r.assetPath?.bind AssetPath.parent? = some p ∧
      (p.isRoot = true ∨ (s.assetFolderAt? p).isSome = true)
  else ∀ parent, r.parent? k = some parent → s.contains k parent = true

/-- The parent of a record is another one, which may be the record itself. -/
def IsParent (k : Kind) (q r : PendingRecord) : Prop :=
  if k = .assetFolder then
    ∃ p, r.assetPath?.bind AssetPath.parent? = some p ∧ q.assetPath? = some p
  else r.parent? k = some q.id

/-- The least set of pending records of a kind that is closed under readiness. -/
inductive Settles (s : Store) (g : Staging) (k : Kind) : PendingRecord → Prop where
  | grounded {r : PendingRecord} (hr : g.get? k r.id = some r) (h : Grounded s k r) :
    Settles s g k r
  | under {q r : PendingRecord} (hr : g.get? k r.id = some r) (hq : Settles s g k q)
    (h : IsParent k q r) : Settles s g k r

/-- Which records settle does not depend on their order. -/
theorem Settles.congr {s : Store} {g g' : Staging} {k : Kind} {r : PendingRecord}
    (hsame : ∀ id, g'.get? k id = g.get? k id) (h : Settles s g k r) : Settles s g' k r := by
  induction h with
  | grounded hr h => exact .grounded ((hsame _).trans hr) h
  | under hr _ h ih => exact .under ((hsame _).trans hr) ih h

/-! ## Readiness in the middle of a commit -/

variable {x y : Session} {k : Kind} {r : PendingRecord}

/-- A record was pending at the start, and is not any more. -/
def Gone (x y : Session) (k : Kind) (q : PendingRecord) : Prop :=
  x.staging.get? k q.id = some q ∧ y.staging.get? k q.id = none

theorem contains_of_steps (h : Steps x y) (hfits : Fits x.store x.staging) (k : Kind)
    (id : ObjectId) : y.store.contains k id = true ↔
      x.store.contains k id = true ∨ ∃ q, Gone x y k q ∧ q.id = id := by
  cases hx : x.staging.get? k id with
  | none =>
    rw [Store.contains_eq, Store.contains_eq, lookup?_of_steps h hfits hx]
    constructor
    · exact Or.inl
    · intro h'
      rcases h' with hcontains | ⟨q, ⟨hq, -⟩, rfl⟩
      · exact hcontains
      · rw [hx] at hq
        cases hq
  | some q =>
    have hid := hfits.keyed k id q hx
    subst hid
    rw [hfits.fresh k q.id q hx k]
    rcases record_of_steps h hfits hx with hpending | ⟨hnone, hcommitted⟩
    · rw [(Commit.fits_of_steps h hfits).fresh k q.id q hpending k]
      constructor
      · intro hfalse
        cases hfalse
      · intro h'
        rcases h' with hfalse | ⟨q', ⟨-, hnone⟩, hid⟩
        · cases hfalse
        · rw [hid, hpending] at hnone
          cases hnone
    · constructor
      · intro _
        exact Or.inr ⟨q, ⟨hx, hnone⟩, rfl⟩
      · intro _
        exact hcommitted.contains

/-- The entry of a record has the path of an asset folder, and no path for other kinds. -/
theorem assetPath?_of_admitted {e : IndexEntry} (h : Admitted k r)
    (he : IndexEntry.ofObject? k r.object = some e) :
    e.assetPath? = if k = .assetFolder then r.assetPath? else none := by
  obtain ⟨e', he', hpath⟩ := PendingRecord.exists_entry h.accepts h.placed
  rw [he] at he'
  cases he'
  exact hpath

/-- After one more record is written, it is gone besides those that were gone before. -/
theorem gone_of_wrote {z : Session} {j : Kind} {q : PendingRecord} (before : Steps x y)
    (hfits : Fits x.store x.staging) (last : Wrote j q y z) (k : Kind) (q' : PendingRecord) :
    Gone x z k q' ↔ Gone x y k q' ∨ j = k ∧ q' = q := by
  unfold Gone
  rw [last.staging, get?_take]
  have hq := get?_of_steps before hfits last.pending
  constructor
  · intro h
    obtain ⟨hq', hnone⟩ := h
    split at hnone
    · next hsame =>
      obtain ⟨rfl, hid⟩ := hsame
      rw [hid, hq'] at hq
      exact Or.inr ⟨rfl, Option.some.inj hq⟩
    · exact Or.inl ⟨hq', hnone⟩
  · intro h
    rcases h with ⟨hq', hnone⟩ | ⟨rfl, rfl⟩
    · refine ⟨hq', ?_⟩
      split
      · rfl
      · exact hnone
    · exact ⟨hq, by rw [if_pos ⟨rfl, rfl⟩]⟩

theorem assetFolderAt?_of_steps (h : Steps x y) (hfits : Fits x.store x.staging) (p : AssetPath) :
    (y.store.assetFolderAt? p).isSome = true ↔
      (x.store.assetFolderAt? p).isSome = true ∨
        ∃ q, Gone x y .assetFolder q ∧ q.assetPath? = some p := by
  induction h with
  | refl =>
    constructor
    · exact Or.inl
    · intro h'
      rcases h' with hat | ⟨q, ⟨hq, hnone⟩, -⟩
      · exact hat
      · rw [hq] at hnone
        cases hnone
  | idle _ last ih =>
    unfold Gone
    rw [last.store, last.staging]
    exact ih
  | @write y z j q before last ih =>
    obtain ⟨e, he, hstore⟩ := last.entry
    have hfits' := Commit.fits_of_steps before hfits
    have hpath := assetPath?_of_admitted (hfits'.admitted j q.id q last.pending) he
    rw [hstore, Store.assetFolderAt?_insert, Bool.or_eq_true, decide_eq_true_iff, ih, hpath]
    simp only [gone_of_wrote before hfits last]
    constructor
    · intro h'
      rcases h' with ⟨rfl, hp⟩ | hat | ⟨q', hq', hp⟩
      · exact Or.inr ⟨q, Or.inr ⟨rfl, rfl⟩, hp⟩
      · exact Or.inl hat
      · exact Or.inr ⟨q', Or.inl hq', hp⟩
    · intro h'
      rcases h' with hat | ⟨q', hq' | ⟨rfl, rfl⟩, hp⟩
      · exact Or.inr (Or.inl hat)
      · exact Or.inr (Or.inr ⟨q', hq', hp⟩)
      · exact Or.inl ⟨rfl, by rw [if_pos rfl, hp]⟩

/-- A record is ready if its parent was committed before or since. -/
theorem isReady_of_steps (h : Steps x y) (hfits : Fits x.store x.staging) (k : Kind)
    (r : PendingRecord) : isReady y.store k r = true ↔
      Grounded x.store k r ∨ ∃ q, Gone x y k q ∧ IsParent k q r := by
  unfold isReady Grounded IsParent
  by_cases hk : k = .assetFolder
  · subst hk
    rw [if_pos rfl, if_pos rfl]
    simp only [if_pos]
    cases hparent : r.assetPath?.bind AssetPath.parent? with
    | none => simp
    | some p =>
      dsimp only
      rw [Bool.or_eq_true, assetFolderAt?_of_steps h hfits]
      simp [or_assoc]
  · rw [if_neg hk, if_neg hk]
    simp only [if_neg hk]
    cases hparent : r.parent? k with
    | none => simp
    | some parent =>
      dsimp only
      rw [contains_of_steps h hfits]
      constructor
      · intro h'
        rcases h' with hin | ⟨q, hq, rfl⟩
        · refine Or.inl ?_
          intro _ hnot
          cases hnot
          exact hin
        · exact Or.inr ⟨q, hq, rfl⟩
      · intro h'
        rcases h' with hin | ⟨q, hq, hid⟩
        · exact Or.inl (hin parent rfl)
        · exact Or.inr ⟨q, hq, (Option.some.inj hid).symm⟩

/-! ## Committing and settling -/

/-- Only records that settle are committed. -/
theorem settles_of_gone (h : Steps x y) (hfits : Fits x.store x.staging) {k : Kind}
    {r : PendingRecord} (hgone : Gone x y k r) : Settles x.store x.staging k r := by
  induction h generalizing k r with
  | refl =>
    obtain ⟨hr, hnone⟩ := hgone
    rw [hr] at hnone
    cases hnone
  | idle _ last ih =>
    refine ih ?_
    unfold Gone
    rw [← last.staging]
    exact hgone
  | @write y z j q before last ih =>
    obtain ⟨hr, hnone⟩ := hgone
    rw [last.staging, get?_take] at hnone
    split at hnone
    · next hsame =>
      obtain ⟨rfl, hid⟩ := hsame
      have hq := get?_of_steps before hfits last.pending
      rw [hid, hr] at hq
      cases hq
      rcases (isReady_of_steps before hfits j _).1 last.ready with hgrounded | ⟨p, hp, hparent⟩
      · exact .grounded hr hgrounded
      · exact .under hr (ih hp) hparent
    · exact ih ⟨hr, hnone⟩

/-- Once no pending record is ready, all that settle are committed. -/
theorem gone_of_settles (h : Steps x y) (hfits : Fits x.store x.staging)
    (hstuck : ∀ id r, y.staging.get? k id = some r → isReady y.store k r = false)
    (hsettles : Settles x.store x.staging k r) : Gone x y k r := by
  have hready : ∀ {r}, x.staging.get? k r.id = some r → isReady y.store k r = true →
      Gone x y k r := by
    intro r hr hready
    rcases record_of_steps h hfits hr with hpending | ⟨hnone, -⟩
    · rw [hstuck r.id r hpending] at hready
      cases hready
    · exact ⟨hr, hnone⟩
  induction hsettles with
  | grounded hr hgrounded =>
    exact hready hr ((isReady_of_steps h hfits k _).2 (Or.inl hgrounded))
  | under hr _ hparent ih =>
    exact hready hr ((isReady_of_steps h hfits k _).2 (Or.inr ⟨_, ih, hparent⟩))

end AudioProject.Staging
