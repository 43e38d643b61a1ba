import AudioProject.Proofs.Staging.Journaling
import AudioProject.Proofs.Staging.ParentFirst

/-
  What is left of a commit whose journal cannot be written any more. From the write that fails on
  the commit does nothing, and the file names, in order, every document that the commit has written
  but the last one at most. So whoever undoes what the file names takes away files of the commit
  alone: `commits_are_recoverable`.
-/

namespace AudioProject

open FileTree Store Staging

/-! ## The write that fails -/

/-- The `n`-th write from now on is to fail, and every later one. -/
def Faults.FailsAt (f : Faults) (n : Nat) : Prop := f.threshold ≠ 0 ∧ f.threshold ≤ f.attempts + n

namespace Faults

variable {f f' : Faults} {m n : Nat}

theorem iterate_count (h : f.threshold ≠ 0) (n : Nat) :
    Faults.count^[n] f = { f with attempts := f.attempts + n } := by
  induction n with
  | zero => rfl
  | succ n ih =>
    rw [Function.iterate_succ_apply', ih]
    unfold count
    rw [if_neg h]
    rfl

/-- Where a write is to fail, fewer have been made that did not. -/
theorem Spared.lt (h : Spared m f f') (hn : 1 ≤ n) (hfails : f.FailsAt n) :
    m < n ∧ f'.attempts = f.attempts + m := by
  refine ⟨?_, by rw [h.count, iterate_count hfails.1]⟩
  by_contra hle
  have hspared := h.spared (n - 1) (by omega)
  rw [iterate_count hfails.1] at hspared
  have hreached : f.threshold ≤ f.attempts + (n - 1) + 1 := by
    have := hfails.2
    omega
  simp [strikes, hfails.1, hreached] at hspared

end Faults

namespace Session

variable {base : Location} {x y : Session} {ws more : List WrittenRecord} {n : Nat}

/-- What is left when the `n`-th write of the journal has failed: the commit has written `ws`, which
are in the file, and at most one document besides. -/
structure Recoverable (base : Location) (x : Session) (n : Nat) (ws more : List WrittenRecord)
    (y : Session) : Prop where
  writes : Writes base x (trail x) (ws ++ more) y
  named : ws.length + 1 = n
  unnamed : more.length ≤ 1
  created : ∀ w ∈ ws ++ more,
    x.host.files.has w.path = false ∧ y.host.files.isFile w.path = true
  no_file : n = 1 → y.host.files.isFile (x.store.layout.journal x.nextOperation) = false
  file : n ≠ 1 → ∃ j : Journal,
    y.host.files.read (x.store.layout.journal x.nextOperation) = .ok j.text.toUTF8 ∧
      j.phase = .inProgress ∧ j.steps.map (·.deed) = ws.map WrittenRecord.deed ∧
      (x.host.now.Survives →
        Journal.read y.host.files x.store.layout x.nextOperation = .ok j)

theorem lasting_journalOf (hnow : x.host.now.Survives) (ws : List WrittenRecord) :
    (x.journalOf ws).Lasting where
  started := hnow
  finished := nofun
  steps := by
    intro s hs
    obtain ⟨w, -, rfl⟩ := List.mem_map.1 hs
    exact hnow

theorem Torn.recoverable (h : Torn base x (trail x) ws more y) (hx : AnchoredAt base x)
    (hop : '/' ∉ x.nextOperation.toList) : Recoverable base x (ws.length + 1) ws more y := by
  have hsited := h.record.anchored.sited
  rw [h.record.writes.store.1] at hsited
  have hfile := h.record.file
  unfold journaled at hfile
  refine ⟨h.record.writes, rfl, h.most, h.record.writes.new hx h.record.anchored, fun hn => ?_,
    fun hn => ?_⟩
  · rw [if_pos (List.eq_nil_of_length_eq_zero (by omega))] at hfile
    exact (hsited.filed_none_iff hop).1 hfile
  · have hws : ws ≠ [] := by
      rintro rfl
      exact hn rfl
    rw [if_neg hws] at hfile
    refine ⟨_, hsited.read_of_filed hop hfile, rfl, ?_, fun hnow =>
      hsited.read_of_filed_lasting hop hfile (lasting_journalOf hnow ws)⟩
    simp [journalOf]

end Session

open Session

variable {base : Location} {x : Session}

/-- However many documents a commit has written when a write of its journal fails: it ends with the
error of the journal, and the file, which is there from the second write on, is in progress and
names the first of them in the order in which they were written, all but the last one at most. What
was written is there, and nothing was at its path before. The first part says so of a write that
fails for whatever reason, the second that the first write which is to fail ends the commit. -/
theorem commits_are_recoverable (hanchored : AnchoredAt base x) (hkeyed : x.staging.IsKeyed)
    (hop : '/' ∉ x.nextOperation.toList)
    (hnew : x.host.files.isFile (x.store.layout.journal x.nextOperation) = false) :
    (∀ e y, commitAll x = .error (.journal e) y →
      ∃ n ws more, Recoverable base x n ws more y) ∧
    ∀ n, 1 ≤ n → x.host.faults.FailsAt n →
      x.host.faults.attempts + n ≤ (commitAll.after x).host.faults.attempts →
        ∃ e y ws more, commitAll x = .error (.journal e) y ∧ Recoverable base x n ws more y := by
  have houtcome := outcome_commitAll hanchored hkeyed hop hnew
  constructor
  · intro e y h
    rw [h] at houtcome
    cases houtcome with
    | journal htorn => exact ⟨_, _, _, htorn.recoverable hanchored hop⟩
  · intro n hn hfails hmade
    -- a commit that did not come to the `n`-th write has counted fewer
    have hfew {m : Nat} {y : Session} (hafter : commitAll.after x = y)
        (h : Faults.Spared m x.host.faults y.host.faults) : False := by
      obtain ⟨hlt, hattempts⟩ := h.lt hn hfails
      rw [hafter] at hmade
      omega
    unfold Action.after at hmade hfew
    cases h : commitAll x with
    | ok counts y =>
      rw [h] at houtcome hfew
      cases houtcome with
      | idle => exact (hfew rfl (.zero _)).elim
      | done hclosed =>
        obtain ⟨m, hspared⟩ := hclosed.attempts
        exact (hfew rfl hspared).elim
    | error e y =>
      rw [h] at houtcome hfew hmade
      cases houtcome with
      | unresolved hclosed =>
        obtain ⟨m, hspared⟩ := hclosed.attempts
        exact (hfew rfl hspared).elim
      | store _ hspared => exact (hfew rfl hspared).elim
      | @journal e ws more _ htorn =>
        obtain ⟨f, hspared, hcount⟩ := htorn.attempts
        obtain ⟨hlt, hattempts⟩ := hspared.lt hn hfails
        have hthreshold : f.threshold ≠ 0 := by
          rw [hspared.count, Faults.iterate_count hfails.1]
          exact hfails.1
        dsimp only at hmade
        rw [hcount, Faults.count, if_neg hthreshold] at hmade
        dsimp only at hmade
        obtain rfl : n = ws.length + 1 := by omega
        exact ⟨_, _, _, _, rfl, htorn.recoverable hanchored hop⟩

theorem isKeyed_nested : nested.staging.IsKeyed := by
  have hinner : (({} : Staging).add .eventFolder inner none).IsKeyed :=
    IsKeyed.stage (s := loft) (k := .eventFolder) (r := inner) (Fits.empty loft).keyed rfl
  exact IsKeyed.stage (s := loft) (k := .eventFolder) (r := outer) hinner rfl

/-- The folder and its parent are staged, and the second write of the journal is to fail. -/
def nestedTorn : Session := { nested with host := { loftHost with faults := .after 2 } }

theorem commits_are_recoverable_nested : AnchoredAt ["p"] nestedTorn ∧
    nestedTorn.staging.IsKeyed ∧ nestedTorn.host.faults.FailsAt 2 ∧
    ∃ e y ws more, commitAll nestedTorn = .error (.journal e) y ∧
      Recoverable ["p"] nestedTorn 2 ws more y := by
  have hanchored : AnchoredAt ["p"] nestedTorn := anchored_loftFiles
  have hkeyed : nestedTorn.staging.IsKeyed := isKeyed_nested
  have hfails : nestedTorn.host.faults.FailsAt 2 := ⟨by decide, by decide⟩
  exact ⟨hanchored, hkeyed, hfails, (commits_are_recoverable hanchored hkeyed (by decide)
    (by decide +kernel)).2 2 (by decide) hfails (by decide +kernel)⟩

end AudioProject
