import AudioProject.Proofs.Instantiation.Places
import AudioProject.Proofs.Store.Documents

/-
  What is written spares the files that are there. A document comes to a place where no path found
  anything, and so nothing was (`Anchored.free`); besides it takes away drafts, and a journal writes
  to its own place. So the files at places which are none of these stay, whether a document or a
  journal comes about or not: `Anchored.writeDocument`, `Anchored.save`.
-/

namespace AudioProject

open FileTree Instantiation

variable {P : Location → Prop} {l : Layout} {s : Store} {base j : Location} {op : String}
  {t t' : FileTree} {os : List Object} {path : Path} {names : List String}

/-- None of these places is that of the draft of a document. -/
def SparesDrafts (P : Location → Prop) (base : Location) : Prop :=
  ∀ dir id, ¬ P (base ++ draftNames dir id)

theorem FileTree.contentAt?_of_node?_eq_none (h : t.node? j = none) : t.contentAt? j = none := by
  refine Option.eq_none_iff_forall_ne_some.2 fun b hb => ?_
  rw [contentAt?_eq_some.1 hb] at h
  cases h

/-- Documents and their drafts stand outside the directory of journals. -/
theorem not_inJournals_metadata (base : Location) {names : List String}
    (h : names.head? = some metadataName) : ¬ InJournals base (base ++ names) := by
  rw [inJournals_append]
  exact not_journal_of_head (by simp [h, metadataName, toolDirName])

namespace Store

/-- Where a path below the project finds nothing, nothing stands. -/
theorem Anchored.free (h : Anchored t l base) (hnames : ∀ n ∈ names, Path.IsName n)
    (hhas : t.has (l.root.descend names) = false) {Q : Location → Prop} (hkeeps : Keeps Q t t')
    (hj : t'.locate (l.root.descend names) = .ok j) :
    j = base ++ names ∧ t.contentAt? j = none := by
  refine ⟨eq_of_locate_descend hnames (hkeeps.walk h.root) hj, contentAt?_of_node?_eq_none ?_⟩
  by_contra hnode
  have hlocate := h.well.tree.locate hnames h.root (hkeeps.walk h.root) hj hnode
  rw [has_of_locate hlocate hnode] at hhas
  cases hhas

/-- The project stays where it is while files are spared. -/
theorem Anchored.spares (h : Anchored t l base) (hspares : Spares P t t') (hwell : t'.WellFormed) :
    Anchored t' l base := h.keeps hspares hwell

/-! ## Documents -/

theorem locate_draft (hroot : t.walk l.root = .ok base) {c : ObjectClass} {id : ObjectId}
    (hpath : l.objectPath? c id = some path) (hj : t.locate (draft path) = .ok j) :
    ∃ dir, j = base ++ draftNames dir id := by
  obtain ⟨dir, -, hdir, -, hdraft⟩ := objectPath?_eq_some hpath
  rw [hdraft] at hj
  exact ⟨dir, eq_of_locate_descend (plain_draftNames hdir id) hroot hj⟩

/-- A document that is written comes to a place where nothing was. -/
theorem document_comes (h : Anchored t s.layout base) (hdrafts : SparesDrafts P base)
    (hwrite : s.writeDocument os t = .ok path t') :
    Spares P t t' ∧ ∃ j, t'.locate path = .ok j ∧ t.contentAt? j = none := by
  cases os with
  | nil =>
    unfold Store.writeDocument at hwrite
    cases hwrite
  | cons o os =>
    obtain ⟨hpath, hhas, hfile⟩ := writeDocument_eq_ok hwrite
    obtain ⟨dir, -, hdir, hnames, -⟩ := objectPath?_eq_some hpath
    obtain ⟨t₁, ld, lp, hdirs, hld, hlp, -, -, hkeeps⟩ := writeFile_writes hfile
    have hlocate := hlp
    rw [hnames] at hhas hlp
    have hfree := (h.free (plain_documentNames hdir o.id) hhas hkeeps hlp).2
    obtain ⟨dir', rfl⟩ := locate_draft (hdirs.walk h.root) hpath hld
    refine ⟨hkeeps.mono fun j hj => ⟨?_, ?_⟩, lp, hlocate, hfree⟩
    · rintro rfl
      exact hdrafts _ _ hj.1
    · rintro rfl
      exact hj.2 hfree

/-- One that could not be written has taken away a draft at most. -/
theorem document_fails (h : Anchored t s.layout base) (hdrafts : SparesDrafts P base)
    {e : Store.Error} (hwrite : s.writeDocument os t = .error e t') : Spares P t t' := by
  cases os with
  | nil =>
    unfold Store.writeDocument at hwrite
    cases hwrite
    exact .refl P t
  | cons o os =>
    rcases writeDocument_eq_error hwrite with rfl | ⟨path, hpath, -, hfile⟩
    · exact .refl P _
    rcases writeFile_fails hfile with hkeeps | ⟨t₁, ld, hdirs, hld, -, hkeeps⟩
    · exact .of_keeps (hkeeps.mono fun _ _ => trivial)
    obtain ⟨dir, rfl⟩ := locate_draft (hdirs.walk h.root) hpath hld
    refine .of_keeps (hkeeps.mono fun j hj => ?_)
    rintro rfl
    exact hdrafts _ _ hj

/-- Writing a document leaves the project there and spares files. -/
theorem Anchored.writeDocument (h : Anchored t s.layout base) (hdrafts : SparesDrafts P base)
    (os : List Object) : Anchored ((s.writeDocument os).after t) s.layout base ∧
      Spares P t ((s.writeDocument os).after t) := by
  have hwell : ((s.writeDocument os).after t).WellFormed := wellFormed_writeDocument h.well
  have hspares : Spares P t ((s.writeDocument os).after t) := by
    cases hwrite : s.writeDocument os t with
    | ok path t' =>
      rw [Action.after_of_ok hwrite]
      exact (document_comes h hdrafts hwrite).1
    | error e t' =>
      rw [Action.after_of_error hwrite]
      exact document_fails h hdrafts hwrite
  exact ⟨h.spares hspares hwell, hspares⟩

theorem Anchored.commit (h : Anchored t s.layout base) (hdrafts : SparesDrafts P base) (k : Kind)
    (os : List Object) : Anchored ((s.commit k os).after t) s.layout base ∧
      Spares P t ((s.commit k os).after t) := by
  rcases after_commit s k os t with hafter | hafter <;> rw [hafter]
  · exact ⟨h, .refl P t⟩
  · exact h.writeDocument hdrafts os

/-- However the write of a document ends, journals stay as they are. -/
theorem Anchored.journals_writeDocument (h : Anchored t s.layout base) (os : List Object) :
    Keeps (InJournals base) t ((s.writeDocument os).after t) := by
  cases os with
  | nil => exact .refl _ t
  | cons o os =>
    cases hwrite : s.writeDocument (o :: os) t with
    | ok path t' =>
      rw [Action.after_of_ok hwrite]
      obtain ⟨hpath, -, hfile⟩ := writeDocument_eq_ok hwrite
      obtain ⟨dir, -, hdir, hnames, -⟩ := objectPath?_eq_some hpath
      obtain ⟨t₁, ld, lp, hdirs, hld, hlp, -, -, hkeeps⟩ := writeFile_writes hfile
      rw [hnames] at hlp
      obtain rfl := eq_of_locate_descend (plain_documentNames hdir o.id) (hkeeps.walk h.root) hlp
      obtain ⟨dir', rfl⟩ := locate_draft (hdirs.walk h.root) hpath hld
      refine hkeeps.mono fun j hj => ⟨?_, ?_⟩ <;> rintro rfl
      · exact not_inJournals_metadata base rfl hj
      · exact not_inJournals_metadata base rfl hj
    | error e t' =>
      rw [Action.after_of_error hwrite]
      rcases writeDocument_eq_error hwrite with rfl | ⟨path, hpath, -, hfile⟩
      · exact .refl _ _
      rcases writeFile_fails hfile with hkeeps | ⟨t₁, ld, hdirs, hld, -, hkeeps⟩
      · exact hkeeps.mono fun _ _ => trivial
      obtain ⟨dir, rfl⟩ := locate_draft (hdirs.walk h.root) hpath hld
      refine hkeeps.mono fun j hj => ?_
      rintro rfl
      exact not_inJournals_metadata base rfl hj

theorem Anchored.journals_commit (h : Anchored t s.layout base) (k : Kind) (os : List Object) :
    Keeps (InJournals base) t ((s.commit k os).after t) := by
  rcases after_commit s k os t with hafter | hafter <;> rw [hafter]
  · exact .refl _ t
  · exact h.journals_writeDocument os

/-! ## Journals -/

/-- The journal of an operation stands at none of the places. -/
structure SparesJournal (P : Location → Prop) (base : Location) (op : String) : Prop where
  plain : '/' ∉ op.toList
  apart : ¬ P (base ++ journalNames op)

theorem Anchored.avoids (h : Anchored t l base) (hop : SparesJournal P base op) :
    Journal.Avoids P t (l.journal op) := fun _ _ hkeeps hj =>
  eq_of_locate_journal (hkeeps.walk h.root) hop.plain hj ▸ hop.apart

variable {h : Host} (log : Journal)

theorem Anchored.save (hanchored : Anchored h.files l base)
    (hop : SparesJournal P base log.operation) :
    Anchored ((log.save l).after h).files l base ∧ Spares P h.files ((log.save l).after h).files :=
  have hspares := Spares.of_keeps (Journal.keeps_save (hanchored.avoids hop))
  ⟨hanchored.spares hspares (Journal.wellFormed_save hanchored.well), hspares⟩

theorem Anchored.delete (hanchored : Anchored h.files l base)
    (hop : SparesJournal P base log.operation) :
    Anchored ((log.delete l).after h).files l base ∧
      Spares P h.files ((log.delete l).after h).files :=
  have hspares := Spares.of_keeps (Journal.keeps_delete (hanchored.avoids hop))
  ⟨hanchored.spares hspares (Journal.wellFormed_delete hanchored.well), hspares⟩

theorem Anchored.close (hanchored : Anchored h.files l base)
    (hop : SparesJournal P base log.operation) (keep : Bool) :
    Anchored ((log.close l keep).after h).files l base ∧
      Spares P h.files ((log.close l keep).after h).files :=
  have hspares := Spares.of_keeps (Journal.keeps_close (hanchored.avoids hop))
  ⟨hanchored.spares hspares (Journal.wellFormed_close hanchored.well), hspares⟩

end Store

end AudioProject
