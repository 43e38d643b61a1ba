import AudioProject.Proofs.Journal.Listing
import AudioProject.Proofs.Sparing
import AudioProject.Proofs.Staging.Outcomes
import AudioProject.Proofs.Staging.Writes

/-
  The journal of a commit. Up to each moment of a commit the journal names exactly the documents
  that were written, in order, and so does its file, which is not there before the first of them
  (`Logged`). A document that is written is journaled at once, so a write of the journal that fails
  leaves at most one document that the file does not name (`Torn`); a commit that ends on its own
  closes its journal (`Closed`). `outcome_commitAll` says which of these a commit comes to.
-/

namespace AudioProject

open FileTree Store Instantiation

/-! ## Counting writes -/

/-- From the first count on `n` writes of journals were made, and none of them was to fail. -/
structure Faults.Spared (n : Nat) (f f' : Faults) : Prop where
  count : f' = Faults.count^[n] f
  spared : ∀ i < n, (Faults.count^[i] f).strikes = false

namespace Faults.Spared

variable {n : Nat} {f f' : Faults}

theorem zero (f : Faults) : Spared 0 f f := ⟨rfl, by simp⟩

theorem succ (h : Spared n f f') (hstrikes : f'.strikes = false) : Spared (n + 1) f f'.count where
  count := by rw [Function.iterate_succ_apply', h.count]
  spared := by
    intro i hi
    rcases Nat.lt_succ_iff_lt_or_eq.1 hi with hi | rfl
    · exact h.spared i hi
    · rw [← h.count]
      exact hstrikes

end Faults.Spared

namespace Session

/-- The name of the next operation. -/
def nextOperation (x : Session) : String := x.host.operationName x.host.operations

/-- The journal of a commit that has written these documents. -/
def journalOf (x : Session) (ws : List WrittenRecord) : Journal :=
  { (Journal.begin x.host "commit").1 with steps := ws.map fun w => ⟨w.deed, x.host.now⟩ }

/-- What is then in its file. -/
def journaled (x : Session) (ws : List WrittenRecord) : Option Journal :=
  if ws = [] then none else some (x.journalOf ws)

theorem journaled_concat (x : Session) (ws : List WrittenRecord) (w : WrittenRecord) :
    x.journaled (ws ++ [w]) = some (x.journalOf (ws ++ [w])) := if_neg (by simp)

theorem record_journalOf (x : Session) (ws : List WrittenRecord) (w : WrittenRecord) :
    (x.journalOf ws).record w.deed x.host.now = x.journalOf (ws ++ [w]) := by
  unfold journalOf Journal.record
  simp

variable {base : Location} {x y : Session} {xs : List Session} {ws more : List WrittenRecord}

theorem AnchoredAt.sited (h : AnchoredAt base x) :
    Journal.Sited x.host.files x.store.layout base := ⟨h.well, h.root⟩

/-- What is on the disk when `ws` are journaled, and `more` have been written besides. -/
structure OnRecord (base : Location) (x : Session) (xs : List Session)
    (ws more : List WrittenRecord) (y : Session) : Prop where
  writes : Writes base x xs (ws ++ more) y
  anchored : AnchoredAt base y
  others : Journal.Agree base x.nextOperation x.host.files y.host.files
  file : Journal.Filed y.host.files x.store.layout base x.nextOperation (x.journaled ws)

/-- A write of the journal has failed, behind those of `ws`. -/
structure Torn (base : Location) (x : Session) (xs : List Session) (ws more : List WrittenRecord)
    (y : Session) : Prop where
  record : OnRecord base x xs ws more y
  most : more.length ≤ 1
  attempts : ∃ f, Faults.Spared ws.length x.host.faults f ∧ y.host.faults = f.count

/-- The journal has come to its end. -/
structure Closed (base : Location) (x : Session) (xs : List Session) (ws : List WrittenRecord)
    (y : Session) : Prop where
  writes : Writes base x xs ws y
  anchored : AnchoredAt base y
  others : Journal.Agree base x.nextOperation x.host.files y.host.files
  file : ∃ was, Journal.Filed y.host.files x.store.layout base x.nextOperation was ∧
    (∀ j ∈ was, j.phase.isFinished = true) ∧ (x.store.keepJournals = false → was = none)
  attempts : ∃ n, Faults.Spared n x.host.faults y.host.faults

/-! ## The journal is written -/

namespace OnRecord

variable {j : Journal} {h' : Host}

theorem save_ok (h : OnRecord base x xs ws more y) (hop : '/' ∉ x.nextOperation.toList)
    (hj : j.operation = x.nextOperation) (hsave : j.save y.store.layout y.host = .ok () h') :
    Journal.Agree base x.nextOperation x.host.files h'.files ∧
      Journal.Filed h'.files x.store.layout base x.nextOperation (some j) := by
  rw [h.writes.store.1] at hsave
  have hsited := h.anchored.sited
  rw [h.writes.store.1] at hsited
  obtain ⟨hkept, hholds⟩ := hsited.save_ok (hj ▸ hop) hsave
  rw [hj] at hkept hholds
  exact ⟨h.others.trans fun i _ hi => hkept.others.content i hi, hholds.filed⟩

theorem save_error (h : OnRecord base x xs ws more y) {e : Journal.Error}
    (hsave : j.save y.store.layout y.host = .error e h') :
    Journal.Agree base x.nextOperation x.host.files h'.files ∧
      Journal.Filed h'.files x.store.layout base x.nextOperation (x.journaled ws) := by
  have hkeeps := (h.anchored.sited.save_error hsave).2.1
  exact ⟨h.others.trans fun i _ _ => hkeeps.content i trivial,
    h.file.keeps (hkeeps.content _ trivial)⟩

theorem delete (h : OnRecord base x xs ws more y) (hop : '/' ∉ x.nextOperation.toList)
    (hj : j.operation = x.nextOperation) (hws : ws ≠ []) :
    ∃ t, j.delete y.store.layout y.host = .ok () { y.host with files := t } ∧
      Journal.Agree base x.nextOperation x.host.files t ∧
      Journal.Filed t x.store.layout base x.nextOperation none := by
  have hfile := h.file
  unfold journaled at hfile
  rw [if_neg hws, ← h.writes.store.1, ← hj] at hfile
  have hplain : '/' ∉ j.operation.toList := hj ▸ hop
  obtain ⟨h', hdelete⟩ := h.anchored.sited.delete_filed hplain hfile
  obtain ⟨t, rfl, hkept, hholds⟩ := h.anchored.sited.delete_ok hplain hdelete
  rw [hj] at hkept hholds
  rw [h.writes.store.1] at hholds
  exact ⟨t, hdelete, h.others.trans fun i _ hi => hkept.others.content i hi, hholds.filed⟩

end OnRecord

end Session

namespace Staging.Commit

open Session

variable {base : Location} {x : Session} {xs : List Session} {ws more : List WrittenRecord}
  {c c' : Commit} {k : Kind} {r : PendingRecord}

/-- The journal of a commit under way names `ws`, and so does its file; `more` have been written
besides. -/
structure Logged (base : Location) (x : Session) (xs : List Session) (ws more : List WrittenRecord)
    (c : Commit) : Prop where
  record : OnRecord base x xs ws more c.toSession
  keyed : c.staging.IsKeyed
  journal : c.journal = x.journalOf ws
  now : c.host.now = x.host.now
  attempts : Faults.Spared ws.length x.host.faults c.host.faults

namespace Logged

theorem operation (h : Logged base x xs ws more c) : c.journal.operation = x.nextOperation := by
  rw [h.journal]
  rfl

theorem layout (h : Logged base x xs ws more c) : c.store.layout = x.store.layout :=
  h.record.writes.store.1

theorem start (hanchored : AnchoredAt base x) (hkeyed : x.staging.IsKeyed)
    (hfile : Journal.Filed x.host.files x.store.layout base x.nextOperation none) :
    Logged base x [(start x).toSession] [] [] (start x) where
  record := ⟨Writes.refl.idle (idle_start x), hanchored, fun _ _ _ => rfl, hfile⟩
  keyed := hkeyed
  journal := rfl
  now := rfl
  attempts := .zero _

/-! ## A record -/

/-- A document that could not be written leaves the journal as it was. -/
theorem write_error (h : Logged base x xs ws [] c) {e : Error}
    (hwrite : write k r c = .error e c') :
    (∃ e', e = .store e') ∧ Logged base x (xs ++ [c'.toSession]) ws [] c' := by
  have hidle := (write_eq_error hwrite).1
  have hwell : c'.host.files.WellFormed := by
    rw [← Action.after_of_error hwrite]
    exact wellFormed_write h.record.anchored.well
  obtain ⟨e', t, rfl, hcommit, rfl⟩ := write_fails hwrite
  have hjournals := h.record.anchored.journals_commit k r.objects
  rw [Action.after_of_error hcommit] at hjournals
  have hrecord : OnRecord base x (xs ++ [_]) ws [] _ := ⟨h.record.writes.idle hidle,
    h.record.anchored.keeps hidle.documents hwell, h.record.others.trans (.of_keeps hjournals),
    h.record.file.keeps (hjournals.content _ (inJournals_journal base _))⟩
  exact ⟨⟨e', rfl⟩, { h with record := hrecord }⟩

/-- A document that was written is to be journaled. -/
theorem write_ok (h : Logged base x xs ws [] c) (hpending : c.staging.get? k r.id = some r)
    (hready : isReady c.store k r = true) {path : Path} (hwrite : write k r c = .ok path c') :
    Logged base x (xs ++ [{ c'.toSession with staging := c'.staging.take k r }]) ws [⟨r, path⟩]
      { c' with staging := c'.staging.take k r } := by
  obtain ⟨hpath, e, t, rfl, hdocument, hplaced, hanchored⟩ :=
    placed_of_write h.record.anchored hpending hready hwrite
  have hjournals := h.record.anchored.journals_writeDocument r.objects
  rw [Action.after_of_ok hdocument] at hjournals
  have hwrites := h.record.writes
  rw [List.append_nil] at hwrites
  have hrecord : OnRecord base x (xs ++ [_]) ws [⟨r, path⟩] _ := ⟨hwrites.write hplaced hpath,
    hanchored, h.record.others.trans (.of_keeps hjournals),
    h.record.file.keeps (hjournals.content _ (inJournals_journal base _))⟩
  exact { h with record := hrecord, keyed := h.keyed.take k r }

end Logged

/-- What a commit comes to that does not end on its own. -/
def Ends (base : Location) (x : Session) (e : Error) (xs : List Session) (c : Commit) : Prop :=
  match e with
  | .journal _ => ∃ ws more, Torn base x xs ws more c.toSession
  | .store _ => ∃ ws, Logged base x xs ws [] c
  | .unresolved _ _ _ => ∃ ws, Closed base x xs ws c.toSession
  | _ => False

theorem append_eq (d : Journal.Deed) (c : Commit) : append d c =
    match (c.journal.record d c.host.now).save c.store.layout c.host with
    | .ok () h => .ok () { c with journal := c.journal.record d c.host.now, host := h }
    | .error e h =>
      .error (.journal e) { c with journal := c.journal.record d c.host.now, host := h } := by
  show onHost Error.journal ((c.journal.record d c.host.now).save c.store.layout) _ = _
  unfold onHost Action.within
  dsimp only
  cases (c.journal.record d c.host.now).save c.store.layout c.host <;> rfl

theorem close_eq (p : Journal.Phase) (c : Commit) : close p c =
    match (c.journal.finish p c.host.now).close c.store.layout c.store.keepJournals c.host with
    | .ok () h => .ok () { c with journal := c.journal.finish p c.host.now, host := h }
    | .error e h =>
      .error (.journal e) { c with journal := c.journal.finish p c.host.now, host := h } := by
  show onHost Error.journal
    ((c.journal.finish p c.host.now).close c.store.layout c.store.keepJournals) _ = _
  unfold onHost Action.within
  dsimp only
  cases (c.journal.finish p c.host.now).close c.store.layout c.store.keepJournals c.host <;> rfl

namespace Logged

/-- The document that was written last is journaled. -/
theorem append {w : WrittenRecord} (h : Logged base x xs ws [w] c)
    (hop : '/' ∉ x.nextOperation.toList) :
    Meets (fun xs c => Logged base x xs (ws ++ [w]) [] c) (Ends base x)
      (xs ++ [((append w.deed).after c).toSession]) (append w.deed c) := by
  have hidle := idle_append w.deed c
  have hanchored := anchored_append w.deed h.record.anchored
  have hj : (c.journal.record w.deed c.host.now).operation = x.nextOperation := h.operation
  have hjournal : c.journal.record w.deed c.host.now = x.journalOf (ws ++ [w]) := by
    rw [h.journal, h.now, record_journalOf]
  have hwrites := h.record.writes.idle hidle
  have happend := append_eq w.deed c
  cases hsave : (c.journal.record w.deed c.host.now).save c.store.layout c.host with
  | ok u h' =>
    rw [hsave] at happend
    rw [Action.after_of_ok happend] at hanchored hwrites ⊢
    rw [happend]
    obtain ⟨hothers, hfile⟩ := h.record.save_ok hop hj hsave
    obtain ⟨hstrikes, t, t', -, -, rfl⟩ := Journal.save_eq_ok.1 hsave
    rw [hjournal, ← journaled_concat] at hfile
    refine ⟨⟨?_, hanchored, hothers, hfile⟩, h.keyed, hjournal, h.now, ?_⟩
    · rwa [List.append_nil]
    · rw [List.length_append]
      exact h.attempts.succ hstrikes
  | error e h' =>
    rw [hsave] at happend
    rw [Action.after_of_error happend] at hanchored hwrites ⊢
    rw [happend]
    obtain ⟨hothers, hfile⟩ := h.record.save_error hsave
    obtain ⟨-, t, rfl, -⟩ := Journal.save_eq_error hsave
    exact ⟨ws, [w], ⟨hwrites, hanchored, hothers, hfile⟩, Nat.le_refl _, _, h.attempts, rfl⟩

/-- A record is written and journaled, or where that fails the commit ends. -/
theorem commitRecord (h : Logged base x xs ws [] c) (hop : '/' ∉ x.nextOperation.toList)
    (hpending : c.staging.get? k r.id = some r) (hready : isReady c.store k r = true) :
    Meets (fun xs c => ∃ ws, Logged base x xs ws [] c) (Ends base x) (xs ++ recordTrail k r c)
      (commitRecord k r c) := by
  unfold recordTrail
  cases hwrite : write k r c with
  | error e c₁ =>
    obtain ⟨⟨e', rfl⟩, hlogged⟩ := h.write_error hwrite
    rw [show Commit.commitRecord k r c = .error (.store e') c₁ from Action.bind_of_error hwrite _]
    exact ⟨ws, hlogged⟩
  | ok path c₁ =>
    let c₂ : Commit := { c₁ with staging := c₁.staging.take k r }
    have hlogged : Logged base x (xs ++ [c₂.toSession]) ws [⟨r, path⟩] c₂ :=
      h.write_ok hpending hready hwrite
    have hcommit : Commit.commitRecord k r c =
        (Commit.append (.objectWrite r.object.objectClass.name r.id path) >>= fun _ =>
          modify fun c => { c with counts := c.counts.increment k }) c₂ := by
      unfold Commit.commitRecord
      rw [Action.bind_of_ok hwrite]
      rfl
    have happend := hlogged.append hop
    rw [List.append_assoc] at happend
    rw [hcommit]
    cases hresult : Commit.append (.objectWrite r.object.objectClass.name r.id path) c₂ with
    | ok u c₃ =>
      rw [Action.bind_of_ok hresult]
      unfold WrittenRecord.deed at happend
      rw [hresult] at happend
      have hcounted : Logged base x _ (ws ++ [⟨r, path⟩]) []
        { c₃ with counts := c₃.counts.increment k } := { happend with }
      exact ⟨_, hcounted⟩
    | error e c₃ =>
      rw [Action.bind_of_error hresult]
      unfold WrittenRecord.deed at happend
      rw [hresult] at happend
      exact happend

/-! ## The end -/

/-- A commit that ends on its own closes its journal. -/
theorem close (h : Logged base x xs ws [] c) (hop : '/' ∉ x.nextOperation.toList)
    {p : Journal.Phase} (hp : p.isFinished = true) :
    Meets (fun xs c => ∃ ws, Closed base x xs ws c.toSession) (Ends base x)
      (xs ++ [((close p).after c).toSession]) (close p c) := by
  have hidle := idle_close p c
  have hanchored := anchored_close p h.record.anchored
  have hj : (c.journal.finish p c.host.now).operation = x.nextOperation := h.operation
  have hwrites := h.record.writes.idle hidle
  have hkeep : c.store.keepJournals = x.store.keepJournals := h.record.writes.store.2
  have hclose := close_eq p c
  have hsteps : (c.journal.finish p c.host.now).steps.isEmpty = ws.isEmpty := by
    show c.journal.steps.isEmpty = _
    rw [h.journal]
    simp [journalOf]
  unfold Journal.close at hclose
  rw [hsteps] at hclose
  by_cases hws : ws = []
  · subst hws
    rw [Action.after_of_ok hclose] at hanchored hwrites ⊢
    rw [hclose]
    exact ⟨[], hwrites, hanchored, h.record.others, ⟨none, h.record.file, by simp, by simp⟩, _,
      h.attempts⟩
  rw [if_neg (by simpa using hws)] at hclose
  cases hkept : c.store.keepJournals with
  | false =>
    obtain ⟨t, hdelete, hothers, hfile⟩ := h.record.delete hop hj hws
    rw [hkept, if_neg (by simp), hdelete] at hclose
    rw [Action.after_of_ok hclose] at hanchored hwrites ⊢
    rw [hclose]
    exact ⟨ws, by simpa using hwrites, hanchored, hothers, ⟨none, hfile, by simp, by simp⟩, _,
      h.attempts⟩
  | true =>
    rw [hkept, if_pos rfl] at hclose
    cases hsave : (c.journal.finish p c.host.now).save c.store.layout c.host with
    | ok u h' =>
      rw [hsave] at hclose
      rw [Action.after_of_ok hclose] at hanchored hwrites ⊢
      rw [hclose]
      obtain ⟨hothers, hfile⟩ := h.record.save_ok hop hj hsave
      obtain ⟨hstrikes, t, t', -, -, rfl⟩ := Journal.save_eq_ok.1 hsave
      refine ⟨ws, by simpa using hwrites, hanchored, hothers, ⟨_, hfile, ?_, ?_⟩, _,
        h.attempts.succ hstrikes⟩
      · intro j hj
        cases hj
        exact hp
      · rw [← hkeep, hkept]
        simp
    | error e h' =>
      rw [hsave] at hclose
      rw [Action.after_of_error hclose] at hanchored hwrites ⊢
      rw [hclose]
      obtain ⟨hothers, hfile⟩ := h.record.save_error hsave
      obtain ⟨-, t, rfl, -⟩ := Journal.save_eq_error hsave
      exact ⟨ws, [], ⟨hwrites, hanchored, hothers, hfile⟩, Nat.zero_le _, _, h.attempts, rfl⟩

end Logged

/-- What is journaled is kept up, and the commit ends as it should. -/
theorem guards_logged (base : Location) (x : Session) (hop : '/' ∉ x.nextOperation.toList) :
    Guards (fun xs c => ∃ ws, Logged base x xs ws [] c) (Ends base x) where
  keyed := fun ⟨_, h⟩ => h.keyed
  record := fun ⟨_, h⟩ => h.commitRecord hop
  stop := by
    rintro xs c ⟨ws, h⟩
    have hclose := h.close hop (p := .incomplete) rfl
    cases hresult : Commit.close .incomplete c with
    | ok u c' =>
      rw [hresult] at hclose
      exact fun _ _ => hclose
    | error e c' =>
      rw [hresult] at hclose
      exact hclose

end Staging.Commit

namespace Staging

open Session

variable {base : Location} {x y : Session}

/-- What a commit comes to by its result. -/
inductive Outcome (base : Location) (x : Session) : EStateM.Result Error Session Counts → Prop where
  /-- Nothing was staged. -/
  | idle {counts : Counts} : Outcome base x (.ok counts x)
  | done {counts : Counts} {ws : List WrittenRecord} {y : Session}
    (h : Closed base x (trail x) ws y) : Outcome base x (.ok counts y)
  | unresolved {k : Kind} {ids : List ObjectId} {counts : Counts} {ws : List WrittenRecord}
    {y : Session} (h : Closed base x (trail x) ws y) :
    Outcome base x (.error (.unresolved k ids counts) y)
  /-- The commit stops where it is, and its journal is left as it is. -/
  | store {e : Store.Error} {ws : List WrittenRecord} {y : Session}
    (h : OnRecord base x (trail x) ws [] y)
    (attempts : Faults.Spared ws.length x.host.faults y.host.faults) :
    Outcome base x (.error (.store e) y)
  | journal {e : Journal.Error} {ws more : List WrittenRecord} {y : Session}
    (h : Torn base x (trail x) ws more y) : Outcome base x (.error (.journal e) y)

theorem outcome_commitAll (hanchored : AnchoredAt base x) (hkeyed : x.staging.IsKeyed)
    (hop : '/' ∉ x.nextOperation.toList)
    (hnew : x.host.files.isFile (x.store.layout.journal x.nextOperation) = false) :
    Outcome base x (commitAll x) := by
  by_cases hsize : x.staging.size = 0
  · rw [commitAll_of_empty hsize]
    exact .idle
  have hfile := (hanchored.sited.filed_none_iff hop).2 hnew
  have hstart : ∃ ws, Commit.Logged base x [(Commit.start x).toSession] ws [] (Commit.start x) :=
    ⟨[], .start hanchored hkeyed hfile⟩
  have hrun := (Commit.guards_logged base x hop).run
    (J := fun xs c => ∃ ws, Closed base x xs ws c.toSession)
    (fun ⟨_, h⟩ => h.close hop rfl) hstart
  have htrail : [(Commit.start x).toSession] ++ Commit.runTrail (Commit.start x) = trail x := by
    unfold trail
    rw [if_neg hsize]
    rfl
  rw [htrail] at hrun
  cases h : Commit.run (Commit.start x) with
  | ok u c =>
    rw [h] at hrun
    rw [commitAll_of_ok hsize h]
    obtain ⟨ws, hclosed⟩ := hrun
    exact .done hclosed
  | error e c =>
    rw [h] at hrun
    rw [commitAll_of_error hsize h]
    cases e with
    | journal e =>
      obtain ⟨ws, more, htorn⟩ := hrun
      exact .journal htorn
    | store e =>
      obtain ⟨ws, hlogged⟩ := hrun
      exact .store hlogged.record hlogged.attempts
    | unresolved k ids counts =>
      obtain ⟨ws, hclosed⟩ := hrun
      exact .unresolved hclosed
    | duplicateId id => exact hrun.elim
    | duplicatePath p id => exact hrun.elim
    | invalidRecord k id why => exact hrun.elim

end Staging

end AudioProject
