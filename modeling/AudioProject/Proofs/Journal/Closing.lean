import AudioProject.Proofs.Journal.Ending
import AudioProject.Proofs.Journal.Snapshots

/-
  What is left of a journal that was closed. Closing goes by the steps in memory: a journal with
  steps is written once more or deleted, whichever of the earlier writes failed, and one without
  steps is taken for one that was never written. So an operation that has closed its journal does
  not look as if it had crashed (`closed_journals_end`), except where the journal was written before
  its first step: then its file stays as it was (`journal_without_steps_stays`).

  `Tracked` is the invariant of a journal and its file, `Tracked.perform` is one operation, and
  `Course.tracked` says it of every run.
-/

namespace AudioProject

open FileTree Journal Instantiation

variable {l : Layout} {base : Location} {op : String}

namespace Journal

variable {t t' : FileTree} {j : Journal}

/-- A journal in progress whose file was left is listed. -/
theorem gains_of_filed (hs : Sited t l base) (hs' : Sited t' l base) (hop : '/' ∉ op.toList)
    (hagree : Agree base op t t') (hnew : t.isFile (l.journal op) = false)
    (hfiled : Filed t' l base op (some j)) (hlasting : j.Lasting)
    (hphase : j.phase.isFinished = false) :
    Gains (some j) (unfinished t l) (unfinished t' l) := by
  have hbefore := hs.pending?_of_filed hop ((hs.filed_none_iff hop).2 hnew) (by simp)
  have hlisted : pending? t' l op = some j :=
    pending?_eq_some.2 ⟨hs'.read_of_filed_lasting hop hfiled hlasting, hphase⟩
  rw [← hlisted]
  exact hagree.gains hs hs' hop hbefore

end Journal

namespace Logbook

variable {b b' b₀ : Logbook} {was : Option Journal} {o : Operation} {t₀ : FileTree} {p : Phase}
  {keep : Bool}

/-! ## Runs -/

/-- What can happen to one journal: operations on it, while time goes on and other files come and
go. The second index is the journal as it was written last, if it was not deleted since. -/
inductive Course (l : Layout) (base : Location) (b₀ : Logbook) :
    Logbook → Option Journal → Prop where
  | start : Course l base b₀ b₀ none
  | outside {b : Logbook} {was : Option Journal} (h : Course l base b₀ b was) (host : Host)
      (hwell : host.files.WellFormed)
      (hkeeps : FileTree.Keeps (InJournals base) b.host.files host.files) :
      Course l base b₀ { b with host } was
  | perform {b : Logbook} {was : Option Journal} (h : Course l base b₀ b was) (o : Operation) :
      Course l base b₀ ((perform l o).after b) (snapshot l o b was)

/-- The project is where it was, the file of the journal is the one that was written last, and the
journals of other operations are as they were at `t₀`. -/
structure Tracked (l : Layout) (base : Location) (op : String) (t₀ : FileTree) (b : Logbook)
    (was : Option Journal) : Prop where
  sited : Sited b.host.files l base
  filed : Filed b.host.files l base op was
  others : Agree base op t₀ b.host.files
  operation : b.journal.operation = op

namespace Tracked

/-- The files of journals stay as they are. -/
theorem stay (h : Tracked l base op t₀ b was) (hsited : Sited b'.host.files l base)
    (hkeeps : FileTree.Keeps (InJournals base) b.host.files b'.host.files)
    (hjournal : b'.journal.operation = b.journal.operation) : Tracked l base op t₀ b' was where
  sited := hsited
  filed := h.filed.keeps (hkeeps.content _ (inJournals_journal base op))
  others := h.others.trans (.of_keeps hkeeps)
  operation := hjournal.trans h.operation

/-- The file of the journal is another one. -/
theorem change (h : Tracked l base op t₀ b was) {was' : Option Journal}
    (hkept : Kept l base op b.host.files b'.host.files)
    (hholds : Holds b'.host.files l base op was')
    (hjournal : b'.journal.operation = b.journal.operation) : Tracked l base op t₀ b' was' where
  sited := hkept.sited
  filed := hholds.filed
  others := h.others.trans fun i _ hi => hkept.others.content i hi
  operation := hjournal.trans h.operation

theorem perform (h : Tracked l base op t₀ b was) (hop : '/' ∉ op.toList) (o : Operation) :
    Tracked l base op t₀ ((Logbook.perform l o).after b) (snapshot l o b was) := by
  have hjournal : ((Logbook.perform l o).after b).journal.operation = b.journal.operation := by
    rw [journal_after, remembered_operation]
  have htouched := touched h.sited (h.operation ▸ hop) o was
  rw [h.operation] at htouched
  cases htouched with
  | changed kept holds => exact h.change kept holds hjournal
  | same sited keeps place heq =>
    rw [heq]
    exact h.stay sited (keeps.mono fun _ _ => trivial) hjournal

/-- The file that is there is that of the last write, and it is listed if that was in progress. -/
theorem left {j : Journal} (h : Tracked l base op t₀ b (some j)) (hs : Sited t₀ l base)
    (hop : '/' ∉ op.toList) (hnew : t₀.isFile (l.journal op) = false) :
    b.host.files.read (l.journal op) = .ok j.text.toUTF8 ∧
      (j.phase.isFinished = false → j.Lasting →
        Gains (some j) (unfinished t₀ l) (unfinished b.host.files l)) :=
  ⟨h.sited.read_of_filed hop h.filed, fun hphase hlasting =>
    gains_of_filed hs h.sited hop h.others hnew h.filed hlasting hphase⟩

end Tracked

theorem Course.tracked (h : Course l base b₀ b was) (hwell : b₀.host.files.WellFormed)
    (hroot : b₀.host.files.walk l.root = .ok base) (hop : '/' ∉ b₀.journal.operation.toList)
    (hnew : b₀.host.files.isFile (l.journal b₀.journal.operation) = false) :
    Tracked l base b₀.journal.operation b₀.host.files b was := by
  induction h with
  | start =>
    have hsited : Sited b₀.host.files l base := ⟨hwell, hroot⟩
    exact ⟨hsited, (hsited.filed_none_iff hop).2 hnew, .of_keeps (.refl _ _), rfl⟩
  | outside _ host hwell hkeeps ih =>
    exact ih.stay (ih.sited.keeps hkeeps hwell) hkeeps rfl
  | perform _ o ih => exact ih.perform hop o

/-- A step that was recorded stays in memory, whether or not it was written. -/
theorem Course.steps_of_append {d : Deed}
    (h : Course l base ((Logbook.perform l (.append d)).after b₀) b was) :
    b.journal.steps ≠ [] := by
  induction h with
  | start =>
    rw [journal_after]
    simp [Operation.remembered, Journal.record]
  | outside _ _ _ _ ih => exact ih
  | @perform b _ _ o ih =>
    rw [journal_after]
    cases o <;> simp [Operation.remembered, Journal.record, Journal.finish, ih]

/-- A write that succeeds is the last one. -/
theorem Course.wrote (h : Course l base b₀ b was) (o : Operation) (hok : succeeds l o b = true)
    (hwrites : o.writes (o.remembered b) = true) :
    Course l base b₀ ((Logbook.perform l o).after b)
      (some ((Logbook.perform l o).after b).journal) := by
  have hcourse := h.perform o
  rwa [snapshot, if_pos hok, if_pos hwrites, ← journal_after l] at hcourse

/-! ## Closing -/

/-- The last write of a journal that was closed. -/
theorem snapshot_close (hclose : perform l (.close p keep) b = .ok () b') :
    snapshot l (.close p keep) b was = if b.journal.steps = [] then was
      else if keep then some (b.journal.finish p b.host.now) else none := by
  rw [snapshot, if_pos (succeeds_of_ok hclose)]
  have hsteps : (b.journal.finish p b.host.now).steps = b.journal.steps := rfl
  by_cases hempty : b.journal.steps = []
  · simp [Operation.writes, Operation.deletes, Operation.remembered, hsteps, hempty]
  · cases keep <;> simp [Operation.writes, Operation.deletes, Operation.remembered, hsteps, hempty]

/-- The journal has no step, and yet there is a file of it that tells of an operation in progress,
or that is not to be kept. -/
def Overlooked (keep : Bool) (b : Logbook) (was : Option Journal) : Prop :=
  b.journal.steps = [] ∧ ∃ j ∈ was, keep = false ∨ j.phase.isFinished = false

/-- What is left of a journal that was not overlooked is finished, and nothing if it is not kept. -/
theorem ended_of_not_overlooked (hp : p.isFinished = true) (h : ¬ Overlooked keep b was)
    (hclose : perform l (.close p keep) b = .ok () b') :
    (∀ j ∈ snapshot l (.close p keep) b was, j.phase.isFinished = true) ∧
      (keep = false → snapshot l (.close p keep) b was = none) := by
  rw [snapshot_close hclose]
  by_cases hempty : b.journal.steps = []
  · rw [if_pos hempty]
    have hnone : ∀ j ∈ was, keep ≠ false ∧ j.phase.isFinished ≠ false := fun j hj =>
      not_or.1 fun hleft => h ⟨hempty, j, hj, hleft⟩
    refine ⟨fun j hj => Bool.eq_true_of_not_eq_false (hnone j hj).2, fun hkeep => ?_⟩
    exact Option.eq_none_iff_forall_ne_some.2 fun j hj => (hnone j hj).1 hkeep
  · rw [if_neg hempty]
    cases keep with
    | true =>
      refine ⟨fun j hj => ?_, nofun⟩
      cases hj
      exact hp
    | false => exact ⟨nofun, fun _ => rfl⟩

/-- Whatever has happened to a journal, and whichever writes have failed: once it is closed, the
operation does not look as if it had crashed, and a journal that is not to be kept has no file,
unless it was overlooked. This stays so as long as the files of journals do. Otherwise closing has
left the file as it was, and the journal is listed if it was in progress when it was written. -/
theorem closed_journals_end (h : Course l base b₀ b was) (hwell : b₀.host.files.WellFormed)
    (hroot : b₀.host.files.walk l.root = .ok base) (hop : '/' ∉ b₀.journal.operation.toList)
    (hnew : b₀.host.files.isFile (l.journal b₀.journal.operation) = false)
    (hp : p.isFinished = true) (hclose : perform l (.close p keep) b = .ok () b') {t : FileTree}
    (hwell' : t.WellFormed) (hkeeps : FileTree.Keeps (InJournals base) b'.host.files t) :
    (¬ Overlooked keep b was →
      EndsCleanly l keep b₀.journal.operation b₀.host.files t) ∧
    (b.journal.steps = [] → ∀ j ∈ was,
      t.read (l.journal b₀.journal.operation) = .ok j.text.toUTF8 ∧
        (j.phase.isFinished = false → j.Lasting →
          Gains (some j) (unfinished b₀.host.files l) (unfinished t l))) := by
  have hlater : Course l base b₀ { b' with host := { b'.host with files := t } }
      (snapshot l (.close p keep) b was) := by
    have hcourse := h.perform (.close p keep)
    rw [Action.after_of_ok hclose] at hcourse
    exact hcourse.outside { b'.host with files := t } hwell' hkeeps
  have hsited : Sited b₀.host.files l base := ⟨hwell, hroot⟩
  have htracked := hlater.tracked hwell hroot hop hnew
  constructor
  · intro hnot
    obtain ⟨hended, hgone⟩ := ended_of_not_overlooked hp hnot hclose
    exact .of_filed hsited htracked.sited hop htracked.others hnew htracked.filed hended hgone
  · rintro hempty j rfl
    rw [snapshot_close hclose, if_pos hempty] at htracked
    exact htracked.left hsited hop hnew

/-- The journal of `patched`, one of whose appends has failed, is finished and not kept. -/
def dropped : Logbook := (perform Store.loft.layout (.close .committed false)).after patched

theorem course_patched : Course Store.loft.layout ["p"] torn patched (some patched.journal) :=
  have hcourse : Course Store.loft.layout ["p"] torn repaired _ :=
    (Course.start.perform _).perform _
  hcourse.wrote _ (by decide +kernel) rfl

theorem closed_journals_end_patched :
    torn.host.files.isFile (Store.loft.layout.journal torn.journal.operation) = false ∧
      ¬ Overlooked false patched (some patched.journal) ∧
      perform Store.loft.layout (.close .committed false) patched = .ok () dropped ∧
      EndsCleanly Store.loft.layout false torn.journal.operation torn.host.files
        dropped.host.files := by
  have hroot : torn.host.files.walk Store.loft.layout.root = .ok ["p"] := by decide +kernel
  have hop : '/' ∉ torn.journal.operation.toList := by decide +kernel
  have hnew : torn.host.files.isFile (Store.loft.layout.journal torn.journal.operation) =
      false := by decide +kernel
  -- the first append has failed, and yet its step counts
  have hlater : Course Store.loft.layout ["p"]
      ((perform Store.loft.layout (.append (.checkpoint "one"))).after torn) patched _ :=
    (Course.start.perform _).perform _
  have hoverlooked : ¬ Overlooked false patched (some patched.journal) := fun h =>
    hlater.steps_of_append h.1
  have hclose : perform Store.loft.layout (.close .committed false) patched = .ok () dropped := by
    obtain ⟨_, b', h⟩ := Action.isOk_iff.1 (show Action.isOk
      (perform Store.loft.layout (.close .committed false) patched) = true by decide +kernel)
    rw [h, dropped, Action.after_of_ok h]
  have hdropped : Course Store.loft.layout ["p"] torn dropped _ := course_patched.perform _
  have hwell : dropped.host.files.WellFormed :=
    (hdropped.tracked Store.wellFormed_loftFiles hroot hop hnew).sited.well
  exact ⟨hnew, hoverlooked, hclose, (closed_journals_end course_patched Store.wellFormed_loftFiles
    hroot hop hnew rfl hclose hwell (.refl _ _)).1 hoverlooked⟩

/-- A journal without steps that was written is closed without a look at its file. -/
theorem Course.left_open {j : Journal} (h : Course l base b₀ b (some j))
    (hempty : b.journal.steps = []) (p : Phase) (keep : Bool) :
    ∃ b', Logbook.perform l (.close p keep) b = .ok () b' ∧ Course l base b₀ b' (some j) := by
  have hclose := close_without_steps hempty l p keep
  have hcourse := h.perform (.close p keep)
  rw [Action.after_of_ok hclose, snapshot_close hclose, if_pos hempty] at hcourse
  exact ⟨_, hclose, hcourse⟩

/-- A journal of which nothing was written yet. -/
def fresh : Logbook := ⟨Store.loftHost, (Journal.begin Store.loftHost "commit").1⟩

/-- It is written before any step. -/
def written : Logbook := (perform Store.loft.layout .save).after fresh

theorem written_journal : written.journal = fresh.journal := journal_after _ .save fresh

theorem course_written : Course Store.loft.layout ["p"] fresh written (some fresh.journal) := by
  rw [← written_journal]
  exact Course.start.wrote .save (by decide +kernel) rfl

/-- Whether or not it is to be kept, finishing it succeeds and leaves the file, and it is listed as
unfinished. -/
theorem journal_without_steps_stays :
    Course Store.loft.layout ["p"] fresh written (some fresh.journal) ∧
      ∀ keep, ∃ b', perform Store.loft.layout (.close .committed keep) written = .ok () b' ∧
        b'.host.files.read (Store.loft.layout.journal fresh.journal.operation) =
          .ok fresh.journal.text.toUTF8 ∧
        Gains (some fresh.journal) (unfinished fresh.host.files Store.loft.layout)
          (unfinished b'.host.files Store.loft.layout) := by
  have hroot : fresh.host.files.walk Store.loft.layout.root = .ok ["p"] := by decide +kernel
  have hop : '/' ∉ fresh.journal.operation.toList := by decide +kernel
  have hnew : fresh.host.files.isFile (Store.loft.layout.journal fresh.journal.operation) =
      false := by decide +kernel
  have hempty : written.journal.steps = [] := by
    rw [written_journal]
    rfl
  refine ⟨course_written, fun keep => ?_⟩
  obtain ⟨b', hclose, hcourse⟩ := course_written.left_open hempty .committed keep
  obtain ⟨hread, hlisted⟩ := (hcourse.tracked Store.wellFormed_loftFiles hroot hop hnew).left
    ⟨Store.wellFormed_loftFiles, hroot⟩ hop hnew
  exact ⟨b', hclose, hread, hlisted rfl ⟨by decide +kernel, nofun, nofun⟩⟩

end Logbook

end AudioProject
