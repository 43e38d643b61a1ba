import AudioProject.Journal.Logbook
import AudioProject.Proofs.Journal.Listing

/-
  A journal and its file. Whatever is done with a journal, and whichever writes fail, its file holds
  what was in memory at the last write that succeeded, and nothing after a deletion; the two drift
  apart after a write that failed, and the next one that succeeds brings all of it to the disk.
  What an operation comes to is one of three cases (`effect`), and `touched` says what each does to
  the files. `Faithful` is the invariant; `Faithful.perform` is one operation, and
  `last_write_is_read` says it of every run.
-/

namespace AudioProject.Logbook

open FileTree Journal Instantiation

variable {l : Layout} {base : Location} {b b' b₀ : Logbook} {was : Option Journal}
  {o : Operation}

/-! ## What the file should hold -/

/-- The journal in memory after an operation, whether or not it succeeds. -/
def Operation.remembered (o : Operation) (b : Logbook) : Journal :=
  match o with
  | .append d => b.journal.record d b.host.now
  | .finish p => b.journal.finish p b.host.now
  | .close p _ => b.journal.finish p b.host.now
  | .save => b.journal
  | .delete => b.journal
  | .failAfter _ => b.journal

/-- Whether the operation writes the journal `j` to its file. -/
def Operation.writes (o : Operation) (j : Journal) : Bool :=
  match o with
  | .append _ => true
  | .save => true
  | .close _ keep => keep && !j.steps.isEmpty
  | _ => false

/-- Whether the operation deletes the file of the journal `j`. -/
def Operation.deletes (o : Operation) (j : Journal) : Bool :=
  match o with
  | .delete => true
  | .close _ keep => !keep && !j.steps.isEmpty
  | _ => false

def succeeds (l : Layout) (o : Operation) (b : Logbook) : Bool :=
  match perform l o b with
  | .ok () _ => true
  | .error _ _ => false

/-- The journal as it was at the last write that succeeded since the last deletion, one operation
further on. -/
def snapshot (l : Layout) (o : Operation) (b : Logbook) (was : Option Journal) : Option Journal :=
  if succeeds l o b then
    if o.writes (o.remembered b) then some (o.remembered b)
    else if o.deletes (o.remembered b) then none
    else was
  else was

/-- What can happen to one journal: operations on it, while time goes on. The second index is what
its file should hold. Moments whose text loses something are left out. -/
inductive Run (l : Layout) (b₀ : Logbook) : Logbook → Option Journal → Prop where
  | start : Run l b₀ b₀ none
  | wait {b : Logbook} {was : Option Journal} (h : Run l b₀ b was) (now : Instant)
      (hnow : now.Survives) : Run l b₀ { b with host := { b.host with now := now } } was
  | perform {b : Logbook} {was : Option Journal} (h : Run l b₀ b was) (o : Operation) :
      Run l b₀ ((perform l o).after b) (snapshot l o b was)

/-! ## One operation -/

theorem onHost_of_ok {f : Journal → Action Host Journal.Error Unit} {h' : Host}
    (h : f b.journal b.host = .ok () h') : onHost f b = .ok () { b with host := h' } := by
  unfold onHost
  rw [h]

theorem onHost_of_error {f : Journal → Action Host Journal.Error Unit} {e : Journal.Error}
    {h' : Host} (h : f b.journal b.host = .error e h') :
    onHost f b = .error e { b with host := h' } := by
  unfold onHost
  rw [h]

theorem remembered_operation (o : Operation) (b : Logbook) :
    (o.remembered b).operation = b.journal.operation := by cases o <;> rfl

theorem succeeds_of_ok (h : perform l o b = .ok () b') : succeeds l o b = true := by
  rw [succeeds, h]

theorem not_succeeds {e : Journal.Error} (h : perform l o b = .error e b') :
    ¬ succeeds l o b = true := by
  rw [succeeds, h]
  exact Bool.false_ne_true

/-- What an operation comes to, once it has changed the journal in memory. -/
inductive Effect (l : Layout) (o : Operation) (b : Logbook) : Prop where
  | save (hwrites : o.writes (o.remembered b) = true)
      (heq : perform l o b = onHost (fun j => j.save l) { b with journal := o.remembered b })
  | delete (hwrites : o.writes (o.remembered b) = false)
      (hdeletes : o.deletes (o.remembered b) = true)
      (heq : perform l o b = onHost (fun j => j.delete l) { b with journal := o.remembered b })
  /-- No file is touched. -/
  | quiet (hwrites : o.writes (o.remembered b) = false)
      (hdeletes : o.deletes (o.remembered b) = false) (f : Faults)
      (heq : perform l o b =
        .ok () { host := { b.host with faults := f }, journal := o.remembered b })

theorem perform_close (l : Layout) (p : Phase) (keep : Bool) (b : Logbook) :
    perform l (.close p keep) b = onHost (fun j => j.close l keep)
      { b with journal := (Operation.close p keep).remembered b } := rfl

/-- Without steps, closing leaves the host alone, whatever file there is. -/
theorem close_without_steps (hempty : b.journal.steps = []) (l : Layout) (p : Phase) (keep : Bool) :
    perform l (.close p keep) b =
      .ok () { b with journal := (Operation.close p keep).remembered b } := by
  have hclose : ((Operation.close p keep).remembered b).close l keep = pure () := by
    unfold Journal.close
    rw [show ((Operation.close p keep).remembered b).steps = [] from hempty]
    rfl
  rw [perform_close]
  unfold onHost
  dsimp only
  rw [hclose]
  rfl

/-- With steps, it writes or deletes. -/
theorem close_with_steps (hsteps : b.journal.steps ≠ []) (l : Layout) (p : Phase) (keep : Bool) :
    perform l (.close p keep) b = onHost (fun j => if keep then j.save l else j.delete l)
      { b with journal := (Operation.close p keep).remembered b } := by
  have hclose := close_of_steps (j := (Operation.close p keep).remembered b) hsteps l keep
  rw [perform_close]
  unfold onHost
  dsimp only
  rw [hclose]

theorem effect_close (l : Layout) (p : Phase) (keep : Bool) (b : Logbook) :
    Effect l (.close p keep) b := by
  have hsteps : ((Operation.close p keep).remembered b).steps = b.journal.steps := rfl
  by_cases hempty : b.journal.steps = []
  · refine .quiet ?_ ?_ b.host.faults (close_without_steps hempty l p keep)
    · simp [Operation.writes, hsteps, hempty]
    · simp [Operation.deletes, hsteps, hempty]
  · have hclose := close_with_steps hempty l p keep
    cases keep with
    | true => exact .save (by simp [Operation.writes, hsteps, hempty]) hclose
    | false => exact .delete rfl (by simp [Operation.deletes, hsteps, hempty]) hclose

theorem effect (l : Layout) (o : Operation) (b : Logbook) : Effect l o b := by
  cases o with
  | append d => exact .save rfl rfl
  | finish p => exact .quiet rfl rfl b.host.faults rfl
  | close p keep => exact effect_close l p keep b
  | save => exact .save rfl rfl
  | delete => exact .delete rfl rfl rfl
  | failAfter n => exact .quiet rfl rfl (.after n) rfl

theorem after_of_onHost {f : Journal → Action Host Journal.Error Unit}
    (heq : perform l o b = onHost f b') :
    (perform l o).after b = { b' with host := (f b'.journal).after b'.host } := by
  unfold Action.after
  rw [heq]
  unfold onHost
  cases f b'.journal b'.host <;> rfl

/-- Memory goes on whether or not the operation succeeds, and of the host only files and faults
change. -/
theorem after_perform (l : Layout) (o : Operation) (b : Logbook) : ∃ t f,
    (perform l o).after b = ⟨{ b.host with files := t, faults := f }, o.remembered b⟩ := by
  cases effect l o b with
  | save _ heq =>
    rw [after_of_onHost heq, after_save]
    exact ⟨_, _, rfl⟩
  | delete _ _ heq =>
    rw [after_of_onHost heq, after_delete]
    exact ⟨_, b.host.faults, rfl⟩
  | quiet _ _ f heq => exact ⟨b.host.files, f, Action.after_of_ok heq⟩

theorem journal_after (l : Layout) (o : Operation) (b : Logbook) :
    ((perform l o).after b).journal = o.remembered b := by
  obtain ⟨t, f, hafter⟩ := after_perform l o b
  rw [hafter]

theorem now_after (l : Layout) (o : Operation) (b : Logbook) :
    ((perform l o).after b).host.now = b.host.now := by
  obtain ⟨t, f, hafter⟩ := after_perform l o b
  rw [hafter]

theorem mem_snapshot {j : Journal} (h : j ∈ snapshot l o b was) : j = o.remembered b ∨ j ∈ was := by
  unfold snapshot at h
  split at h
  · split at h
    · exact Or.inl (Option.mem_some_iff.1 h).symm
    · split at h
      · cases h
      · exact Or.inr h
  · exact Or.inr h

/-- What comes between two trees where the file of an operation's journal should be `was'` and not
`was`: it is, and other files are as they were, or no file has changed and none should. -/
inductive Touched (l : Layout) (base : Location) (op : String) (t t' : FileTree)
    (was was' : Option Journal) : Prop where
  | changed (kept : Kept l base op t t') (holds : Holds t' l base op was')
  | same (sited : Sited t' l base) (keeps : FileTree.Keeps (fun _ => True) t t')
      (place : SameAt (base ++ journalNames op) t t') (heq : was' = was)

/-- Every operation does to the files what it should. -/
theorem touched (hs : Sited b.host.files l base) (hop : '/' ∉ b.journal.operation.toList)
    (o : Operation) (was : Option Journal) :
    Touched l base b.journal.operation b.host.files ((perform l o).after b).host.files was
      (snapshot l o b was) := by
  have hname := remembered_operation o b
  have hop' : '/' ∉ (o.remembered b).operation.toList := by rwa [hname]
  cases effect l o b with
  | save hwrites heq =>
    cases hsave : (o.remembered b).save l b.host with
    | ok _ h' =>
      rw [onHost_of_ok (b := { b with journal := o.remembered b }) hsave] at heq
      obtain ⟨hkept, hholds⟩ := hs.save_ok hop' hsave
      rw [hname] at hkept hholds
      rw [Action.after_of_ok heq, snapshot, if_pos (succeeds_of_ok heq), if_pos hwrites]
      exact .changed hkept hholds
    | error e h' =>
      rw [onHost_of_error (b := { b with journal := o.remembered b }) hsave] at heq
      obtain ⟨hsited, hkeeps, hplace⟩ := hs.save_error hsave
      rw [hname] at hplace
      rw [Action.after_of_error heq, snapshot, if_neg (not_succeeds heq)]
      exact .same hsited hkeeps hplace rfl
  | delete hwrites hdeletes heq =>
    cases hdelete : (o.remembered b).delete l b.host with
    | ok _ h' =>
      rw [onHost_of_ok (b := { b with journal := o.remembered b }) hdelete] at heq
      obtain ⟨t, rfl, hkept, hholds⟩ := hs.delete_ok hop' hdelete
      rw [hname] at hkept hholds
      rw [Action.after_of_ok heq, snapshot, if_pos (succeeds_of_ok heq), if_neg (by simp [hwrites]),
        if_pos hdeletes]
      exact .changed hkept hholds
    | error e h' =>
      rw [onHost_of_error (b := { b with journal := o.remembered b }) hdelete] at heq
      obtain rfl := delete_eq_error hdelete
      rw [Action.after_of_error heq, snapshot, if_neg (not_succeeds heq)]
      exact .same hs (.refl _ _) rfl rfl
  | quiet hwrites hdeletes f heq =>
    rw [Action.after_of_ok heq, snapshot, if_pos (succeeds_of_ok heq), if_neg (by simp [hwrites]),
      if_neg (by simp [hdeletes])]
    exact .same hs (.refl _ _) rfl rfl

/-! ## A journal and its file -/

/-- The file holds what it should, and the rest of the tree is as it was at `t₀`. -/
structure Faithful (l : Layout) (base : Location) (op : String) (t₀ : FileTree) (b : Logbook)
    (was : Option Journal) : Prop where
  sited : Sited b.host.files l base
  holds : Holds b.host.files l base op was
  others : FileTree.Keeps (· ≠ base ++ journalNames op) t₀ b.host.files
  operation : b.journal.operation = op
  now : b.host.now.Survives
  memory : b.journal.Lasting
  file : ∀ j ∈ was, j.Lasting

variable {op : String} {t₀ : FileTree}

/-- What one operation comes to: the file still holds what it should, and if the operation failed,
then it was to write, and no file has changed. -/
structure Performed (l : Layout) (base : Location) (op : String) (t₀ : FileTree) (o : Operation)
    (b : Logbook) (was : Option Journal) : Prop where
  faithful : Faithful l base op t₀ ((perform l o).after b) (snapshot l o b was)
  failed : ∀ e b', perform l o b = .error e b' → o.writes (o.remembered b) = true ∧
    FileTree.Keeps (fun _ => True) b.host.files b'.host.files

namespace Faithful

theorem lasting_remembered (h : Faithful l base op t₀ b was) (o : Operation) :
    (o.remembered b).Lasting := by
  cases o with
  | append d => exact h.memory.record d h.now
  | finish p => exact h.memory.finish p h.now
  | close p keep => exact h.memory.finish p h.now
  | save => exact h.memory
  | delete => exact h.memory
  | failAfter n => exact h.memory

/-- Only a write can fail, and then no file has changed. -/
theorem failed (h : Faithful l base op t₀ b was) (hop : '/' ∉ op.toList) {e : Journal.Error}
    (hfails : Logbook.perform l o b = .error e b') : o.writes (o.remembered b) = true ∧
      FileTree.Keeps (fun _ => True) b.host.files b'.host.files := by
  have hname : (o.remembered b).operation = op := (remembered_operation o b).trans h.operation
  cases effect l o b with
  | save hwrites heq =>
    rw [hfails] at heq
    cases hsave : (o.remembered b).save l b.host with
    | ok _ h' =>
      rw [onHost_of_ok (b := { b with journal := o.remembered b }) hsave] at heq
      cases heq
    | error e' h' =>
      rw [onHost_of_error (b := { b with journal := o.remembered b }) hsave] at heq
      cases heq
      exact ⟨hwrites, (h.sited.save_error hsave).2.1⟩
  | delete _ _ heq =>
    obtain ⟨t, hdelete, -⟩ := h.sited.delete (hname ▸ hop) (hname ▸ h.holds)
    rw [onHost_of_ok (b := { b with journal := o.remembered b }) hdelete, hfails] at heq
    cases heq
  | quiet _ _ f heq =>
    rw [hfails] at heq
    cases heq

/-- Every operation does what it should. -/
theorem perform (h : Faithful l base op t₀ b was) (hop : '/' ∉ op.toList) (o : Operation) :
    Performed l base op t₀ o b was where
  faithful := by
    have htouched := touched h.sited (h.operation ▸ hop) o was
    rw [h.operation] at htouched
    obtain ⟨hsited, hholds, hothers⟩ : Sited ((Logbook.perform l o).after b).host.files l base ∧
        Holds ((Logbook.perform l o).after b).host.files l base op (snapshot l o b was) ∧
        FileTree.Keeps (· ≠ base ++ journalNames op) t₀
          ((Logbook.perform l o).after b).host.files := by
      cases htouched with
      | changed kept holds => exact ⟨kept.sited, holds, h.others.trans kept.others⟩
      | same sited keeps place heq =>
        rw [heq]
        exact ⟨sited, h.holds.sameAt place, h.others.trans (keeps.mono fun _ _ => trivial)⟩
    have hmemory := h.lasting_remembered o
    refine ⟨hsited, hholds, hothers, ?_, ?_, ?_, fun j hj => ?_⟩
    · rw [journal_after, remembered_operation, h.operation]
    · rw [now_after]
      exact h.now
    · rw [journal_after]
      exact hmemory
    · rcases mem_snapshot hj with rfl | hold
      · exact hmemory
      · exact h.file j hold
  failed := fun _ _ hfails => h.failed hop hfails

end Faithful

/-! ## Runs -/

theorem Run.faithful (h : Run l b₀ b was) (hwell : b₀.host.files.WellFormed)
    (hroot : b₀.host.files.walk l.root = .ok base) (hop : '/' ∉ b₀.journal.operation.toList)
    (hnew : b₀.host.files.has (l.journal b₀.journal.operation) = false)
    (hnow : b₀.host.now.Survives) (hlasting : b₀.journal.Lasting) :
    Faithful l base b₀.journal.operation b₀.host.files b was := by
  induction h with
  | start =>
    have hsited : Sited b₀.host.files l base := ⟨hwell, hroot⟩
    exact ⟨hsited, (hsited.holds_none_iff hop).2 hnew, .refl _ _, rfl, hnow, hlasting, by simp⟩
  | wait _ now hnow ih => exact { ih with now := hnow }
  | perform _ o ih => exact (ih.perform hop o).faithful

/-- What is read of a journal is what was in memory at the last write that succeeded since the last
deletion, or that there is no journal. It is listed as unfinished exactly if that is in progress;
all other journals are listed as before. An operation that fails was to write, and it changes no
file; the journal in memory goes on all the same. -/
theorem last_write_is_read (h : Run l b₀ b was) (hwell : b₀.host.files.WellFormed)
    (hroot : b₀.host.files.walk l.root = .ok base) (hop : '/' ∉ b₀.journal.operation.toList)
    (hnew : b₀.host.files.has (l.journal b₀.journal.operation) = false)
    (hnow : b₀.host.now.Survives) (hlasting : b₀.journal.Lasting) :
    Journal.read b.host.files l b₀.journal.operation =
        was.elim (.error (.notFound b₀.journal.operation)) .ok ∧
      Gains (was.filter fun j => !j.phase.isFinished) (unfinished b₀.host.files l)
        (unfinished b.host.files l) ∧
      ∀ o, ((perform l o).after b).journal = o.remembered b ∧
        ∀ e b', perform l o b = .error e b' → o.writes (o.remembered b) = true ∧
          FileTree.Keeps (fun _ => True) b.host.files b'.host.files := by
  have hfaithful := h.faithful hwell hroot hop hnew hnow hlasting
  have hsited : Sited b₀.host.files l base := ⟨hwell, hroot⟩
  have hread := hfaithful.sited.read_of_holds hop hfaithful.holds hfaithful.file
  refine ⟨hread, ?_, fun o => ⟨journal_after l o b, (hfaithful.perform hop o).failed⟩⟩
  have hpending : pending? b.host.files l b₀.journal.operation =
      was.filter fun j => !j.phase.isFinished := by
    unfold pending?
    rw [hread]
    cases was with
    | none => rfl
    | some j => cases hphase : j.phase.isFinished <;> simp [hphase, Option.filter]
  rw [← hpending]
  refine Agree.gains (fun j _ hj => hfaithful.others.content j hj) hsited hfaithful.sited hop ?_
  unfold pending?
  rw [hsited.read_of_holds hop ((hsited.holds_none_iff hop).2 hnew) (by simp)]
  rfl

theorem Run.wrote (h : Run l b₀ b was) (o : Operation) (hok : succeeds l o b = true)
    (hwrites : o.writes (o.remembered b) = true) :
    Run l b₀ ((Logbook.perform l o).after b) (some ((Logbook.perform l o).after b).journal) := by
  have hrun := h.perform o
  rwa [snapshot, if_pos hok, if_pos hwrites, ← journal_after l] at hrun

/-- A journal that has no file yet, and whose next write fails. -/
def torn : Logbook :=
  ⟨{ Store.loftHost with faults := .after 1 }, (Journal.begin Store.loftHost "commit").1⟩

/-- The first write has failed, and from now on none does. -/
def repaired : Logbook :=
  (perform Store.loft.layout (.failAfter 0)).after
    ((perform Store.loft.layout (.append (.checkpoint "one"))).after torn)

/-- The next write has brought both steps to the disk. -/
def patched : Logbook :=
  (perform Store.loft.layout (.append (.checkpoint "two"))).after repaired

theorem run_patched : Run Store.loft.layout torn patched (some patched.journal) :=
  have hrun : Run Store.loft.layout torn repaired _ := (Run.start.perform _).perform _
  hrun.wrote _ (by decide +kernel) rfl

theorem last_write_is_read_patched : Run Store.loft.layout torn patched (some patched.journal) ∧
    torn.host.files.WellFormed ∧ torn.host.files.walk Store.loft.layout.root = .ok ["p"] ∧
    torn.host.files.has (Store.loft.layout.journal "op") = false ∧
    patched.journal.steps.length = 2 ∧
    Journal.read patched.host.files Store.loft.layout "op" = .ok patched.journal :=
  have hroot : torn.host.files.walk Store.loft.layout.root = .ok ["p"] := by decide +kernel
  have hnew : torn.host.files.has (Store.loft.layout.journal "op") = false := by decide +kernel
  ⟨run_patched, Store.wellFormed_loftFiles, hroot, hnew, by decide +kernel,
    (last_write_is_read run_patched Store.wellFormed_loftFiles hroot (by decide) hnew
      (by decide +kernel) ⟨by decide +kernel, nofun, nofun⟩).1⟩

end AudioProject.Logbook
