import AudioProject.Proofs.Instantiation.Places

/-
  How one file of an instantiation comes about. A document or a copy of media that is written
  where no path found anything is a new file, and nothing else changes; one that could not be
  written has changed nothing (`creates_writeDocument`, `creates_copyFile`).
-/

namespace AudioProject.Instantiation

open FileTree AudioProject.Path

variable {s : Store} {base : Location} {files : List NewFile} {t₀ t t' : FileTree}

/-! ## Documents -/

/-- No draft of a document is there, so writing one and removing it leaves no trace. -/
theorem draft_free (h : Adds s.layout.root base files t₀ t) (hsite : Site s.layout base t₀)
    {c : ObjectClass} {id : ObjectId} {path : Path} (hpath : s.layout.objectPath? c id = some path)
    {P : Location → Prop} {t₁ : FileTree} (hkeeps : Keeps P t t₁) {l : Location}
    (hl : t₁.locate (Store.draft path) = .ok l) : t.contentAt? l = none := by
  obtain ⟨dir, -, hdir, -, hdraft⟩ := objectPath?_eq_some hpath
  have hjournal : ¬ [toolDirName, "ops"] <+: draftNames dir id :=
    not_journal_of_head (by simp [draftNames, metadataName, toolDirName])
  cases hb : t.contentAt? l with
  | none => rfl
  | some b =>
    exfalso
    have hl' := hl
    rw [hdraft] at hl'
    obtain ⟨-, ⟨hold, hlocate⟩ | ⟨f, hf, hnames⟩⟩ :=
      h.locate_of_content hsite (plain_draftNames hdir id) hjournal hkeeps hl' hb
    · have hfile := hsite.no_draft c id path hpath
      rw [hdraft, isFile_of_locate hlocate hold] at hfile
      cases hfile
    · exact (h.planned f hf).not_draft dir id hnames

/-- The document of an object as a new file. -/
def documentFile (s : Store) (dir : String) (o : Object) (os : List Object) : NewFile :=
  ⟨documentNames dir o.id, s.documentBytes (o :: os)⟩

theorem creates_writeDocument (h : Adds s.layout.root base files t₀ t)
    (hsite : Site s.layout base t₀) {o : Object} {os : List Object} {path : Path}
    (hwrite : s.writeDocument (o :: os) t = .ok path t') :
    ∃ dir, o.objectClass.directory? = some dir ∧
      path = (documentFile s dir o os).path s.layout.root ∧
      IsPlanned (documentFile s dir o os).names ∧
      t.contentAt? ((documentFile s dir o os).place base) = none ∧
      Creates path ((documentFile s dir o os).place base) (s.documentBytes (o :: os)) t t' := by
  obtain ⟨hpath, hhas, hfile⟩ := Store.writeDocument_eq_ok hwrite
  obtain ⟨dir, hclass, hdir, hnames, -⟩ := objectPath?_eq_some hpath
  obtain ⟨t₁, ld, lp, hdirs, hld, hlp, hleft, hcontent, hkeeps⟩ := Store.writeFile_writes hfile
  have hplanned := isPlanned_documentNames hdir o.id
  have hfree : t.contentAt? lp = none := by
    rw [hnames] at hhas hlp
    exact h.free hsite hplanned hhas hkeeps hlp
  have hne : ld ≠ lp := by
    intro hsame
    have hlast := Store.getLast?_objectPath hpath hlp
    exact not_isSettled_draft hld (isSettled_of_fileName (hsame ▸ hlast))
  have hplace : lp = base ++ documentNames dir o.id := by
    rw [hnames] at hlp
    exact eq_of_locate_descend hplanned.plain
      (hkeeps.walk (h.directories.walk hsite.found)) hlp
  have hdraft := draft_free h hsite hpath hdirs hld
  have hplace' : (documentFile s dir o os).place base = lp := hplace.symm
  refine ⟨dir, hclass, hnames, hplanned, hplace' ▸ hfree, ?_⟩
  rw [hplace']
  refine ⟨⟨hkeeps.current, hkeeps.directory, fun l hl => ?_⟩, hlp, hcontent hne⟩
  by_cases hl' : l = ld
  · rw [hl', hleft, hdraft]
  · exact hkeeps.content l ⟨hl', hl⟩

theorem keeps_writeDocument_error (h : Adds s.layout.root base files t₀ t)
    (hsite : Site s.layout base t₀) {os : List Object} {e : Store.Error}
    (hwrite : s.writeDocument os t = .error e t') : Keeps (fun _ => True) t t' := by
  cases os with
  | nil =>
    unfold Store.writeDocument at hwrite
    cases hwrite
    exact .refl _ t
  | cons o os =>
    rcases Store.writeDocument_eq_error hwrite with hsame | ⟨path, hpath, -, hfile⟩
    · rw [hsame]
      exact .refl _ t
    rcases Store.writeFile_fails hfile with hkeeps | ⟨t₁, ld, hdirs, hld, hleft, hkeeps⟩
    · exact hkeeps
    have hdraft := draft_free h hsite hpath hdirs hld
    refine ⟨hkeeps.current, hkeeps.directory, fun l _ => ?_⟩
    by_cases hl : l = ld
    · rw [hl, hleft, hdraft]
    · exact hkeeps.content l hl

/-! ## Media -/

theorem copy_eq_ok {source dest : Path} :
    t.copy source dest = .ok t' ↔ ∃ b, t.read source = .ok b ∧ t.write dest b = .ok t' := by
  unfold FileTree.copy FileTree.read
  split <;> simp

/-- Makes the directory that a file is to stand in. -/
def makeParent (dest : Path) : Action FileTree FileError Unit :=
  match dest.parent? with
  | some dir => FileTree.createDirs dir
  | none => pure ()

theorem keeps_makeParent (dest : Path) (t : FileTree) :
    Keeps (fun _ => True) t ((makeParent dest).after t) := by
  unfold makeParent
  cases dest.parent? with
  | none => exact .refl _ t
  | some dir => exact keeps_createDirs dir t

theorem copyFile_eq (source dest : Path) : copyFile source dest =
    (makeParent dest >>= fun _ =>
      Action.outcome (Action.changing fun t => t.copy source dest) >>= fun done =>
        match done with
        | .ok () => pure ()
        | .error e =>
          Action.outcome (ε := FileError) (Action.changing fun t => t.removeFile dest) >>=
            fun _ => throw e) := by
  unfold copyFile makeParent
  cases dest.parent? <;> rfl

theorem copyFile_eq_ok {source dest : Path} {u : Unit} (h : copyFile source dest t = .ok u t') :
    ∃ t₁ ls l b, Keeps (fun _ => True) t t₁ ∧ t₁.locate source = .ok ls ∧
      t₁.contentAt? ls = some b ∧ t₁.locate dest = .ok l ∧ t₁.node? l ≠ some .directory ∧
      t' = t₁.put l (.file b) := by
  have hkeeps := keeps_makeParent dest t
  rw [copyFile_eq] at h
  obtain ⟨_, t₁, hdirs, h⟩ := Action.bind_eq_ok.1 h
  rw [Action.after_of_ok hdirs] at hkeeps
  obtain ⟨done, t₂, hdone, h⟩ := Action.bind_eq_ok.1 h
  cases done with
  | error e =>
    obtain ⟨_, _, -, h⟩ := Action.bind_eq_ok.1 h
    cases h
  | ok v =>
    cases h
    have hcopy := Action.changing_eq_ok.1 (Action.outcome_eq_ok.1 hdone)
    obtain ⟨b, hread, hwrite⟩ := copy_eq_ok.1 hcopy
    obtain ⟨ls, hls, hb⟩ := read_eq_ok.1 hread
    obtain ⟨l, hl, hdir, rfl⟩ := write_eq_ok.1 hwrite
    exact ⟨t₁, ls, l, b, hkeeps, hls, hb, hl, hdir, rfl⟩

theorem copyFile_eq_error {source dest : Path} {e : FileError}
    (h : copyFile source dest t = .error e t') :
    ∃ t₁, Keeps (fun _ => True) t t₁ ∧ (t' = t₁ ∨ t₁.removeFile dest = .ok t') := by
  have hkeeps := keeps_makeParent dest t
  rw [copyFile_eq] at h
  rcases Action.bind_eq_error.1 h with h | ⟨_, t₁, hdirs, h⟩
  · rw [Action.after_of_error h] at hkeeps
    exact ⟨t', hkeeps, Or.inl rfl⟩
  rw [Action.after_of_ok hdirs] at hkeeps
  rcases Action.bind_eq_error.1 h with h | ⟨done, t₂, hdone, hrest⟩
  · exact absurd h Action.outcome_ne_error
  cases done with
  | ok v => cases hrest
  | error e' =>
    obtain ⟨-, rfl⟩ := Action.changing_eq_error.1 (Action.outcome_eq_ok.1 hdone)
    rcases Action.bind_eq_error.1 hrest with h | ⟨removed, t₃, hremove, hthrow⟩
    · exact absurd h Action.outcome_ne_error
    cases hthrow
    cases removed with
    | ok v =>
      exact ⟨t₂, hkeeps, Or.inr (Action.changing_eq_ok.1 (Action.outcome_eq_ok.1 hremove))⟩
    | error e'' =>
      obtain ⟨-, rfl⟩ := Action.changing_eq_error.1 (Action.outcome_eq_ok.1 hremove)
      exact ⟨_, hkeeps, Or.inl rfl⟩

/-- The file holds what the source of the copy holds, which stands beside it. -/
def HoldsSource (base : Location) (source : Path) (t : FileTree) (f : NewFile) : Prop :=
  ∃ l, t.locate source = .ok l ∧ (¬ InJournals base l → t.contentAt? l = some f.content)

theorem HoldsSource.grows {source : Path} {f : NewFile} (h : HoldsSource base source t f)
    (hgrows : Grows base t t') : HoldsSource base source t' f := by
  obtain ⟨l, hl, hb⟩ := h
  exact ⟨l, Keeps.locate hgrows hl, fun hout => hgrows.content hout (hb hout)⟩

/-- Where a path leads to, nothing stands. It leads there as well once directories have come. -/
def IsFree (t : FileTree) (p : Path) (l : Location) : Prop :=
  ∀ t₁ j, Keeps (fun _ => True) t t₁ → t₁.locate p = .ok j → j = l ∧ t.contentAt? l = none

/-- A copy to a free place is a new file, and its source holds the same. -/
theorem creates_of_isFree {source dest : Path} {l : Location} (hfree : IsFree t dest l) {u : Unit}
    (hcopy : copyFile source dest t = .ok u t') : t.contentAt? l = none ∧
      ∃ b ls, Creates dest l b t t' ∧ t'.locate source = .ok ls ∧ t'.contentAt? ls = some b := by
  obtain ⟨t₁, ls, j, b, hdirs, hls, hb, hj, hdir, rfl⟩ := copyFile_eq_ok hcopy
  obtain ⟨rfl, hnone⟩ := hfree t₁ j hdirs hj
  have hput := keeps_put t₁ hdir b
  have hne : ls ≠ j := by
    rintro rfl
    rw [hdirs.content _ trivial, hnone] at hb
    cases hb
  refine ⟨hnone, b, ls, ⟨(hdirs.mono fun _ _ => trivial).trans hput, hput.locate hj, ?_⟩,
    hput.locate hls, ?_⟩
  · rw [contentAt?_put t₁ (ne_nil_of_node? hdir), if_pos rfl]
  · rw [hput.content ls hne, hb]

/-- If it fails, nothing is there that could be removed. -/
theorem keeps_of_isFree {source dest : Path} {l : Location} (hfree : IsFree t dest l)
    {e : FileError} (hcopy : copyFile source dest t = .error e t') :
    Keeps (fun _ => True) t t' := by
  obtain ⟨t₁, hdirs, rfl | hremove⟩ := copyFile_eq_error hcopy
  · exact hdirs
  obtain ⟨j, b, hj, hb, -⟩ := removeFile_eq_ok.1 hremove
  obtain ⟨rfl, hnone⟩ := hfree t₁ j hdirs hj
  rw [← hdirs.content j trivial, contentAt?_eq_some.2 hb] at hnone
  cases hnone

theorem Adds.isFree (h : Adds s.layout.root base files t₀ t) (hsite : Site s.layout base t₀)
    {names : List String} (hplanned : IsPlanned names)
    (hhas : t.has (s.layout.root.descend names) = false) :
    IsFree t (s.layout.root.descend names) (base ++ names) := by
  intro t₁ j hdirs hj
  have hfree := h.free hsite hplanned hhas hdirs hj
  obtain rfl : j = base ++ names :=
    eq_of_locate_descend hplanned.plain (hdirs.walk (h.directories.walk hsite.found)) hj
  exact ⟨rfl, hfree⟩

theorem creates_copyFile (h : Adds s.layout.root base files t₀ t) (hsite : Site s.layout base t₀)
    {source : Path} {names : List String} (hplanned : IsPlanned names)
    (hhas : t.has (s.layout.root.descend names) = false) {u : Unit}
    (hcopy : copyFile source (s.layout.root.descend names) t = .ok u t') :
    ∃ b, t.contentAt? (base ++ names) = none ∧
      Creates (s.layout.root.descend names) (base ++ names) b t t' ∧
      HoldsSource base source t' ⟨names, b⟩ := by
  obtain ⟨hnone, b, ls, hcreates, hls, hb⟩ :=
    creates_of_isFree (h.isFree hsite hplanned hhas) hcopy
  exact ⟨b, hnone, hcreates, ls, hls, fun _ => hb⟩

theorem keeps_copyFile_error (h : Adds s.layout.root base files t₀ t)
    (hsite : Site s.layout base t₀) {source : Path} {names : List String}
    (hplanned : IsPlanned names) (hhas : t.has (s.layout.root.descend names) = false)
    {e : FileError} (hcopy : copyFile source (s.layout.root.descend names) t = .error e t') :
    Keeps (fun _ => True) t t' :=
  keeps_of_isFree (h.isFree hsite hplanned hhas) hcopy

end AudioProject.Instantiation
