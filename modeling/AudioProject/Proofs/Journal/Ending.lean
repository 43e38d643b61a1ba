import AudioProject.Proofs.Journal.Listing

/-
  How the journal of an operation that has returned should stand on the disk: not in progress, so
  that the operation is not taken for one that crashed. The file tells the phase whatever the time
  stamps in it come to, so it is enough that the journal that was written last is finished
  (`EndsCleanly.of_filed`), and a journal in progress that was left is seen (`not_endsCleanly`).
-/

namespace AudioProject.Journal

open FileTree Instantiation

variable {l : Layout} {keep : Bool} {base : Location} {op : String} {t t' : FileTree}
  {was : Option Journal} {j : Journal}

/-- An operation that came between two trees does not look as if it had crashed. -/
structure EndsCleanly (l : Layout) (keep : Bool) (op : String) (t t' : FileTree) : Prop where
  finished : ∀ j, read t' l op = .ok j → j.phase.isFinished = true
  /-- The same journals are listed as unfinished. -/
  unfinished : Gains none (unfinished t l) (Journal.unfinished t' l)
  gone : keep = false → t'.isFile (l.journal op) = false

/-- What is read of a journal has the phase of what is in the file. -/
theorem Sited.phase_of_read (hs : Sited t l base) (hop : '/' ∉ op.toList)
    (hfiled : Filed t l base op was) (hread : read t l op = .ok j) :
    ∃ j' ∈ was, j.phase = j'.phase := by
  obtain ⟨b, s, hproper, hcontent, hs, hj⟩ := (hs.read_eq_ok hop).1 hread
  rw [hfiled.content hproper] at hcontent
  obtain ⟨j', rfl, rfl⟩ := Option.map_eq_some_iff.1 hcontent
  rw [fromUTF8?_toUTF8] at hs
  cases hs
  exact ⟨j', rfl, phase_of_ofText? hj⟩

theorem Sited.pending?_of_filed (hs : Sited t l base) (hop : '/' ∉ op.toList)
    (hfiled : Filed t l base op was) (hended : ∀ j ∈ was, j.phase.isFinished = true) :
    pending? t l op = none := by
  refine Option.eq_none_iff_forall_ne_some.2 fun j hj => ?_
  obtain ⟨hread, hphase⟩ := pending?_eq_some.1 hj
  obtain ⟨j', hj', hsame⟩ := hs.phase_of_read hop hfiled hread
  rw [hsame, hended j' hj'] at hphase
  cases hphase

/-- The journal is finished, or its file is gone. -/
theorem EndsCleanly.of_filed (hs : Sited t l base) (hs' : Sited t' l base) (hop : '/' ∉ op.toList)
    (hagree : Agree base op t t') (hnew : t.isFile (l.journal op) = false)
    (hfiled : Filed t' l base op was) (hended : ∀ j ∈ was, j.phase.isFinished = true)
    (hgone : keep = false → was = none) : EndsCleanly l keep op t t' where
  finished := by
    intro j hread
    obtain ⟨j', hj', hsame⟩ := hs'.phase_of_read hop hfiled hread
    rw [hsame, hended j' hj']
  unfinished := by
    have hbefore := hs.pending?_of_filed hop ((hs.filed_none_iff hop).2 hnew) (by simp)
    rw [← hs'.pending?_of_filed hop hfiled hended]
    exact hagree.gains hs hs' hop hbefore
  gone := by
    intro hkeep
    rw [hgone hkeep] at hfiled
    exact (hs'.filed_none_iff hop).1 hfiled

/-- A journal in progress that is left looks as if the operation had crashed. -/
theorem not_endsCleanly (hs : Sited t' l base) (hop : '/' ∉ op.toList)
    (hfiled : Filed t' l base op (some j)) (hlasting : j.Lasting)
    (hphase : j.phase.isFinished = false) : ¬ EndsCleanly l keep op t t' := by
  intro h
  rw [h.finished j (hs.read_of_filed_lasting hop hfiled hlasting)] at hphase
  cases hphase

end AudioProject.Journal
