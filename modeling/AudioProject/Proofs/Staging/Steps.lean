import AudioProject.Proofs.Journal.Files
import AudioProject.Proofs.Staging.Tables
import AudioProject.Proofs.Store.Places

/-
  A commit as a sequence of steps. A step either writes one ready record, which moves it from the
  staging to the index and its document to the disk, or leaves both and every document alone.
  However a commit ends, the sessions before and after it are joined by such steps:
  `steps_commitAll`. What holds across one step is carried over to a whole commit by induction on
  `Steps`; what is said of the commit itself, of its journal for one, by `Commit.Follows`.
-/

namespace AudioProject

open FileTree

namespace Session

/-- A ready record is written: it leaves the staging, its entry is in the index, and its document
can be read. Other documents are as before. -/
structure Wrote (k : Kind) (r : PendingRecord) (x y : Session) : Prop where
  pending : x.staging.get? k r.id = some r
  ready : Staging.isReady x.store k r = true
  entry : ∃ e, IndexEntry.ofObject? k r.object = some e ∧ y.store = x.store.insert k e
  staging : y.staging = x.staging.take k r
  document : ∃ path, x.store.layout.objectPath? r.object.objectClass r.id = some path ∧
    y.host.files.read path = .ok (x.store.documentBytes r.objects)
  others : Keeps (IsOther r.id) x.host.files y.host.files

/-- Neither the store nor the staging nor a document changes. -/
structure Idle (x y : Session) : Prop where
  store : y.store = x.store
  staging : y.staging = x.staging
  documents : Keeps IsSettled x.host.files y.host.files

inductive Steps : Session → Session → Prop where
  | refl (x : Session) : Steps x x
  | idle {x y z : Session} (h : Steps x y) (last : Idle y z) : Steps x z
  | write {x y z : Session} {k : Kind} {r : PendingRecord} (h : Steps x y) (last : Wrote k r y z) :
    Steps x z

theorem Steps.trans {x y z : Session} (h : Steps x y) (h' : Steps y z) : Steps x z := by
  induction h' with
  | refl => exact h
  | idle _ last ih => exact ih.idle last
  | write _ last ih => exact ih.write last

/-- A record that is on disk stays there while others are written. -/
theorem Wrote.idle {k : Kind} {r : PendingRecord} {x y z : Session} (h : Wrote k r x y)
    (h' : Idle y z) : Wrote k r x z where
  pending := h.pending
  ready := h.ready
  entry := by
    obtain ⟨e, he, hstore⟩ := h.entry
    exact ⟨e, he, h'.store.trans hstore⟩
  staging := h'.staging.trans h.staging
  document := by
    obtain ⟨path, hpath, hread⟩ := h.document
    obtain ⟨l, hl, -⟩ := read_eq_ok.1 hread
    have hlast := Store.getLast?_objectPath hpath hl
    exact ⟨path, hpath, h'.documents.read hl (isSettled_of_fileName hlast) hread⟩
  others := h.others.trans (h'.documents.mono fun _ hl => hl.1)

end Session

namespace Staging.Commit

open Session

/-! ## Journaling -/

theorem after_append (d : Journal.Deed) (c : Commit) :
    (append d).after c = { c with
      journal := c.journal.record d c.host.now
      host := ((c.journal.record d c.host.now).save c.store.layout).after c.host } := by
  show (onHost Error.journal ((c.journal.record d c.host.now).save c.store.layout)).after _ = _
  rw [onHost, Action.after_within]

theorem after_close (p : Journal.Phase) (c : Commit) :
    (close p).after c = { c with
      journal := c.journal.finish p c.host.now
      host := ((c.journal.finish p c.host.now).close c.store.layout c.store.keepJournals).after
        c.host } := by
  show (onHost Error.journal
    ((c.journal.finish p c.host.now).close c.store.layout c.store.keepJournals)).after _ = _
  rw [onHost, Action.after_within]

theorem idle_append (d : Journal.Deed) (c : Commit) :
    Idle c.toSession ((append d).after c).toSession := by
  rw [after_append]
  exact ⟨rfl, rfl, Journal.keeps_save fun _ _ _ hl => not_isSettled_journal hl⟩

theorem idle_close (p : Journal.Phase) (c : Commit) :
    Idle c.toSession ((close p).after c).toSession := by
  rw [after_close]
  exact ⟨rfl, rfl, Journal.keeps_close fun _ _ _ hl => not_isSettled_journal hl⟩

/-- Only a journal error ends a step that keeps the journal. -/
theorem append_eq_error {d : Journal.Deed} {c c' : Commit} {e : Error}
    (h : append d c = .error e c') : ∃ e', e = .journal e' := by
  obtain ⟨e', -, -, he, -⟩ := Action.within_eq_error.1 (show onHost Error.journal _ _ = _ from h)
  exact ⟨e', he⟩

theorem close_eq_error {p : Journal.Phase} {c c' : Commit} {e : Error}
    (h : close p c = .error e c') : ∃ e', e = .journal e' := by
  obtain ⟨e', -, -, he, -⟩ := Action.within_eq_error.1 (show onHost Error.journal _ _ = _ from h)
  exact ⟨e', he⟩

/-! ## One record -/

section Record

variable {k : Kind} {r : PendingRecord} {c c' : Commit}

theorem write_eq_ok {path : Path} (h : write k r c = .ok path c') :
    ∃ e t, IndexEntry.ofObject? k r.object = some e ∧
      c.store.writeDocument r.objects c.host.files = .ok path t ∧
      c' = { c with host := { c.host with files := t }, store := c.store.insert k e } := by
  unfold write at h
  obtain ⟨c₀, _, hget, h⟩ := Action.bind_eq_ok.1 h
  cases hget
  obtain ⟨⟨store, p⟩, c₁, hwrite, h⟩ := Action.bind_eq_ok.1 h
  obtain ⟨host, hhost, rfl⟩ := Action.within_eq_ok.1 hwrite
  obtain ⟨t, ht, rfl⟩ := Action.within_eq_ok.1 hhost
  obtain ⟨e, he, rfl, hdocument⟩ := Store.commit_eq_ok ht
  cases h
  exact ⟨e, t, he, hdocument, rfl⟩

/-- A document that could not be written leaves all but files as it was. -/
theorem write_fails {e : Error} (h : write k r c = .error e c') :
    ∃ e' t, e = .store e' ∧ c.store.commit k r.objects c.host.files = .error e' t ∧
      c' = { c with host := { c.host with files := t } } := by
  unfold write at h
  rcases Action.bind_eq_error.1 h with h | ⟨c₀, _, hget, h⟩
  · cases h
  cases hget
  rcases Action.bind_eq_error.1 h with h | ⟨⟨store, p⟩, c₁, -, h⟩
  · obtain ⟨e', host, hhost, rfl, rfl⟩ := Action.within_eq_error.1 h
    obtain ⟨e'', t, ht, rfl, rfl⟩ := Action.within_eq_error.1 hhost
    exact ⟨_, t, rfl, ht, rfl⟩
  · cases h

theorem write_eq_error {e : Error} (h : write k r c = .error e c') :
    Idle c.toSession c'.toSession ∧ ∃ e' t, e = .store e' ∧
      c.store.commit k r.objects c.host.files = .error e' t := by
  obtain ⟨e', t, rfl, ht, rfl⟩ := write_fails h
  refine ⟨⟨rfl, rfl, ?_⟩, _, t, rfl, ht⟩
  rcases Store.commit_eq_error ht with ⟨-, rfl⟩ | hdocument
  · exact .refl _ _
  · exact Store.writeDocument_fails hdocument

/-- The state once the record is out of the staging, before the journal is written. -/
def written (k : Kind) (r : PendingRecord) (e : IndexEntry) (t : FileTree) (c : Commit) : Commit :=
  { c with
    host := { c.host with files := t }
    store := c.store.insert k e
    staging := c.staging.take k r }

theorem wrote_written {e : IndexEntry} {t : FileTree} {path : Path}
    (hpending : c.staging.get? k r.id = some r) (hready : isReady c.store k r = true)
    (he : IndexEntry.ofObject? k r.object = some e)
    (hdocument : c.store.writeDocument r.objects c.host.files = .ok path t) :
    Wrote k r c.toSession (written k r e t c).toSession := by
  obtain ⟨hpath, hread, hothers⟩ := Store.writeDocument_reads hdocument
  exact ⟨hpending, hready, ⟨e, he, rfl⟩, rfl, ⟨path, hpath, hread⟩, hothers⟩

theorem commitRecord_eq_ok (hpending : c.staging.get? k r.id = some r)
    (hready : isReady c.store k r = true) {u : Unit} (h : commitRecord k r c = .ok u c') :
    Wrote k r c.toSession c'.toSession ∧ c'.counts = c.counts.increment k := by
  unfold commitRecord at h
  obtain ⟨path, c₁, hwrite, h⟩ := Action.bind_eq_ok.1 h
  obtain ⟨e, t, he, hdocument, rfl⟩ := write_eq_ok hwrite
  obtain ⟨_, c₂, hmodify, h⟩ := Action.bind_eq_ok.1 h
  cases hmodify
  obtain ⟨_, c₃, happend, h⟩ := Action.bind_eq_ok.1 h
  cases h
  have hafter := Action.after_of_ok happend
  have hidle := idle_append (.objectWrite r.object.objectClass.name r.id path) (written k r e t c)
  refine ⟨(wrote_written hpending hready he hdocument).idle (z := c₃.toSession) ?_, ?_⟩
  · rw [← hafter]
    exact hidle
  · rw [← hafter, after_append]

theorem commitRecord_eq_error (hpending : c.staging.get? k r.id = some r)
    (hready : isReady c.store k r = true) {e : Error} (h : commitRecord k r c = .error e c') :
    (Idle c.toSession c'.toSession ∧ ∃ e' t, e = .store e' ∧
        c.store.commit k r.objects c.host.files = .error e' t) ∨
      Wrote k r c.toSession c'.toSession ∧ ∃ e', e = .journal e' := by
  unfold commitRecord at h
  rcases Action.bind_eq_error.1 h with h | ⟨path, c₁, hwrite, h⟩
  · exact Or.inl (write_eq_error h)
  obtain ⟨entry, t, he, hdocument, rfl⟩ := write_eq_ok hwrite
  rcases Action.bind_eq_error.1 h with h | ⟨_, c₂, hmodify, h⟩
  · cases h
  cases hmodify
  rcases Action.bind_eq_error.1 h with happend | ⟨_, c₃, -, h⟩
  · refine Or.inr ⟨?_, append_eq_error happend⟩
    refine (wrote_written hpending hready he hdocument).idle (z := c'.toSession) ?_
    rw [← Action.after_of_error happend]
    exact idle_append _ (written k r entry t c)
  · cases h

/-- However it ends, committing a ready record is a step. -/
theorem steps_commitRecord (hpending : c.staging.get? k r.id = some r)
    (hready : isReady c.store k r = true) :
    Steps c.toSession ((commitRecord k r).after c).toSession := by
  cases h : commitRecord k r c with
  | ok u c' =>
    rw [Action.after_of_ok h]
    exact (Steps.refl _).write (commitRecord_eq_ok hpending hready h).1
  | error e c' =>
    rw [Action.after_of_error h]
    rcases commitRecord_eq_error hpending hready h with ⟨hidle, -⟩ | ⟨hwrote, -⟩
    · exact (Steps.refl _).idle hidle
    · exact (Steps.refl _).write hwrote

end Record

/-! ## A whole commit -/

/-- What is staged is sound after every step. -/
theorem sound_of_steps {x y : Session} (h : Steps x y) (hsound : x.staging.Sound) :
    y.staging.Sound := by
  induction h with
  | refl => exact hsound
  | idle _ last ih =>
    rw [last.staging]
    exact ih
  | write _ last ih =>
    rw [last.staging]
    exact ih.take last.pending

/-- What is staged fits the store after every step. -/
theorem fits_of_steps {x y : Session} (h : Steps x y) (hfits : Fits x.store x.staging) :
    Fits y.store y.staging := by
  induction h with
  | refl => exact hfits
  | idle _ last ih =>
    rw [last.store, last.staging]
    exact ih
  | write _ last ih =>
    obtain ⟨e, he, hstore⟩ := last.entry
    rw [hstore, last.staging]
    exact ih.commit last.pending (IndexEntry.id_ofObject? he)

/-- A relation that can be followed from part to part of a commit: it holds across each ready record
that is committed, and across the end of the journal. -/
structure Follows (R : Commit → Commit → Prop) : Prop where
  refl : ∀ c, R c c
  trans : ∀ {c c' c''}, R c c' → R c' c'' → R c c''
  record : ∀ {k : Kind} {id : ObjectId} {r : PendingRecord} {c : Commit},
    c.staging.get? k id = some r → isReady c.store k r = true → R c ((commitRecord k r).after c)
  close : ∀ p c, R c ((close p).after c)

namespace Follows

variable {R : Commit → Commit → Prop}

theorem bind {α β : Type} {x : Action Commit Error α} {f : α → Action Commit Error β} {c : Commit}
    (h : Follows R) (hx : R c (x.after c)) (hf : ∀ a c', x c = .ok a c' → R c' ((f a).after c')) :
    R c ((x >>= f).after c) := Action.after_bind (R := R) h.trans hx hf

theorem pass (h : Follows R) (k : Kind) (ids : List ObjectId) (c : Commit) :
    R c ((pass k ids).after c) := by
  induction ids generalizing c with
  | nil => exact h.refl c
  | cons id ids ih =>
    unfold Commit.pass
    refine h.bind (h.refl c) ?_
    intro _ _ hget
    cases hget
    cases hr : c.staging.get? k id with
    | none => exact ih c
    | some r =>
      dsimp only
      cases hready : isReady c.store k r with
      | false => exact ih c
      | true =>
        rw [if_pos rfl]
        refine h.bind (h.record hr hready) fun _ c₁ _ => ?_
        exact h.bind (ih c₁) fun _ c₂ _ => h.refl c₂

theorem passes (h : Follows R) (k : Kind) (n : Nat) (c : Commit) : R c ((passes k n).after c) := by
  induction n generalizing c with
  | zero => exact h.refl c
  | succ n ih =>
    unfold Commit.passes
    refine h.bind (h.refl c) ?_
    intro _ _ hget
    cases hget
    refine h.bind (h.pass k _ c) fun progress c₁ _ => ?_
    refine h.bind (h.refl c₁) ?_
    intro _ _ hget
    cases hget
    dsimp only
    by_cases hleft : (c₁.staging.ids k).isEmpty = true
    · rw [if_pos hleft]
      exact h.refl c₁
    rw [if_neg hleft]
    cases progress with
    | true => exact ih c₁
    | false =>
      rw [if_neg (by simp)]
      refine h.bind (h.close .incomplete c₁) fun _ c₂ _ => ?_
      refine h.bind (h.refl c₂) fun _ c₃ hget => ?_
      cases hget
      exact h.refl c₂

theorem kinds (h : Follows R) (ks : List Kind) (c : Commit) : R c ((kinds ks).after c) := by
  induction ks generalizing c with
  | nil => exact h.refl c
  | cons k ks ih =>
    unfold Commit.kinds
    refine h.bind (h.refl c) ?_
    intro _ _ hget
    cases hget
    exact h.bind (h.passes k _ c) fun _ c₁ _ => ih c₁

end Follows

/-- A commit of a session, before anything is written. -/
def start (x : Session) : Commit :=
  { x with
    host := (Journal.begin x.host "commit").2
    journal := (Journal.begin x.host "commit").1 }

/-- All kinds, and the end of the journal. -/
def run : Action Commit Error Unit := do
  kinds Kind.all
  close .committed

theorem idle_start (x : Session) : Idle x (start x).toSession := ⟨rfl, rfl, .refl _ _⟩

theorem Follows.run {R : Commit → Commit → Prop} (h : Follows R) (c : Commit) :
    R c (run.after c) :=
  h.bind (h.kinds Kind.all c) fun _ c₁ _ => h.close .committed c₁

/-- A commit goes from step to step while what is staged is sound. -/
theorem follows_steps :
    Follows fun c c' => c.staging.Sound → Steps c.toSession c'.toSession where
  refl := fun _ _ => .refl _
  trans := fun h h' hsound => (h hsound).trans (h' (sound_of_steps (h hsound) hsound))
  record := by
    intro k id r c hr hready hsound
    obtain rfl := hsound.keyed k id r hr
    exact steps_commitRecord hr hready
  close := fun p c _ => (Steps.refl _).idle (idle_close p c)

theorem steps_run {c : Commit} (hsound : c.staging.Sound) :
    Steps c.toSession (run.after c).toSession := follows_steps.run c hsound

end Staging.Commit

namespace Staging

open Session

theorem commitAll_of_empty {x : Session} (h : x.staging.size = 0) :
    commitAll x = .ok Counts.zero x := by
  unfold commitAll
  rw [if_pos h]

theorem commitAll_of_ok {x : Session} (hsize : x.staging.size ≠ 0) {u : Unit} {c : Commit}
    (h : Commit.run (Commit.start x) = .ok u c) : commitAll x = .ok c.counts c.toSession := by
  unfold Commit.run Commit.start at h
  unfold commitAll
  rw [if_neg hsize]
  dsimp only at h ⊢
  rw [h]

theorem commitAll_of_error {x : Session} (hsize : x.staging.size ≠ 0) {e : Error} {c : Commit}
    (h : Commit.run (Commit.start x) = .error e c) : commitAll x = .error e c.toSession := by
  unfold Commit.run Commit.start at h
  unfold commitAll
  rw [if_neg hsize]
  dsimp only at h ⊢
  rw [h]

/-- However a commit ends, the session after it is reached by steps, whichever the store. -/
theorem steps_commitAll_of_sound {x : Session} (hsound : x.staging.Sound) :
    Steps x (commitAll.after x) := by
  by_cases hsize : x.staging.size = 0
  · rw [Action.after_of_ok (commitAll_of_empty hsize)]
    exact .refl x
  have hrun := ((Steps.refl x).idle (Commit.idle_start x)).trans
    (Commit.steps_run (c := Commit.start x) hsound)
  cases h : Commit.run (Commit.start x) with
  | ok u c =>
    rw [Action.after_of_ok h] at hrun
    rw [Action.after_of_ok (commitAll_of_ok hsize h)]
    exact hrun
  | error e c =>
    rw [Action.after_of_error h] at hrun
    rw [Action.after_of_error (commitAll_of_error hsize h)]
    exact hrun

theorem steps_commitAll {x : Session} (hfits : Fits x.store x.staging) :
    Steps x (commitAll.after x) := steps_commitAll_of_sound hfits.toSound

end Staging

end AudioProject
