import AudioProject.Instantiation.Execution
import AudioProject.Proofs.Files.Descent
import AudioProject.Proofs.Journal.Files
import AudioProject.Proofs.Store.Places

/-
  Which files an operation has made, and that it did nothing else. `Adds files t t'` says that `t'`
  has the files of `t` and, as new ones, `files`; only journals may differ. A file that comes about
  at a free place is one more of them (`Adds.create`), and removing it again leaves the rest
  (`Adds.remove`). A place is free when no path leads to anything there (`Adds.free`).
-/

namespace AudioProject.Instantiation

open FileTree AudioProject.Path

/-- A place in the directory of journals of the project at `base`. -/
def InJournals (base l : Location) : Prop := base ++ [toolDirName, "ops"] <+: l

/-- A file of a project, by the names that lead to it from the project's directory. -/
structure NewFile where
  names : List String
  content : ByteArray

def NewFile.path (root : Path) (f : NewFile) : Path := root.descend f.names

def NewFile.place (base : Location) (f : NewFile) : Location := base ++ f.names

/-- Names that lead to no journal, and to no draft of a document. -/
structure IsPlanned (names : List String) : Prop where
  plain : ∀ n ∈ names, IsName n
  not_journal : ¬ [toolDirName, "ops"] <+: names
  not_draft : ∀ dir (id : ObjectId), names ≠ [metadataName, dir, id.fileName ++ ".tmp"]

/-- The files of a project before anything is done: the project is there, everything stands in a
directory, and no draft of a document is left. -/
structure Site (layout : Layout) (base : Location) (t : FileTree) : Prop where
  found : t.walk layout.root = .ok base
  tree : t.IsTree
  no_draft : ∀ c id path, layout.objectPath? c id = some path → t.isFile (Store.draft path) = false

/-- The second tree has `files` more than the first; besides, only journals differ. -/
structure Adds (root : Path) (base : Location) (files : List NewFile) (t t' : FileTree) : Prop where
  directories : Keeps (fun _ => False) t t'
  planned : ∀ f ∈ files, IsPlanned f.names
  located : ∀ f ∈ files, t'.locate (f.path root) = .ok (f.place base)
  content : ∀ f ∈ files, t'.contentAt? (f.place base) = some f.content
  new : ∀ f ∈ files, t.contentAt? (f.place base) = none
  distinct : (files.map (NewFile.place base)).Nodup
  others : ∀ l, ¬ InJournals base l → l ∉ files.map (NewFile.place base) →
    t'.contentAt? l = t.contentAt? l

/-- A file is made at a place, and no other is changed. -/
structure Creates (p : Path) (l : Location) (b : ByteArray) (t t' : FileTree) : Prop where
  keeps : Keeps (· ≠ l) t t'
  located : t'.locate p = .ok l
  content : t'.contentAt? l = some b

/-- Files stay as they are, journals excepted. -/
def Grows (base : Location) (t t' : FileTree) : Prop :=
  Keeps (fun l => ¬ InJournals base l ∧ t.contentAt? l ≠ none) t t'

variable {root : Path} {base l : Location} {names : List String} {files : List NewFile}
  {t t' t'' : FileTree}

theorem inJournals_append : InJournals base (base ++ names) ↔ [toolDirName, "ops"] <+: names :=
  List.prefix_append_right_inj base

theorem not_inJournals_place {f : NewFile} (h : IsPlanned f.names) :
    ¬ InJournals base (f.place base) := fun hin => h.not_journal (inJournals_append.1 hin)

/-! ## Growing -/

namespace Grows

theorem refl (base : Location) (t : FileTree) : Grows base t t := Spares.refl _ t

theorem trans (h : Grows base t t') (h' : Grows base t' t'') : Grows base t t'' := Spares.trans h h'

theorem of_keeps (h : Keeps (fun l => ¬ InJournals base l) t t') : Grows base t t' :=
  Spares.of_keeps h

theorem of_creates {p : Path} {b : ByteArray} (h : Creates p l b t t')
    (hfree : t.contentAt? l = none) : Grows base t t' := Spares.of_free h.keeps hfree

/-- What a file outside the journals holds, it goes on to hold. -/
theorem content (h : Grows base t t') {b : ByteArray} (hl : ¬ InJournals base l)
    (hb : t.contentAt? l = some b) : t'.contentAt? l = some b := Spares.content h hl hb

end Grows

/-! ## Adding and removing -/

/-- A file that cannot be removed stays, and the others go all the same. -/
theorem removeAll_cons (p : Path) (ps : List Path) (t : FileTree) :
    removeAll (p :: ps) t =
      match t.removeFile p with
      | .ok t' => removeAll ps t'
      | .error _ => removeAll ps t := by
  rw [removeAll, Store.removeDocument_eq]
  cases t.removeFile p with
  | ok t' => rfl
  | error e => cases e <;> rfl

namespace Adds

theorem refl (root : Path) (base : Location) (t : FileTree) : Adds root base [] t t where
  directories := .refl _ t
  planned := by simp
  located := by simp
  content := by simp
  new := by simp
  distinct := List.nodup_nil
  others := fun _ _ _ => rfl

theorem keeps (h : Adds root base files t t')
    (hkeeps : Keeps (fun l => ¬ InJournals base l) t' t'') : Adds root base files t t'' where
  directories := h.directories.trans (hkeeps.mono fun _ hl => hl.elim)
  planned := h.planned
  located := fun f hf => hkeeps.locate (h.located f hf)
  content := by
    intro f hf
    rw [hkeeps.content _ (not_inJournals_place (h.planned f hf)), h.content f hf]
  new := h.new
  distinct := h.distinct
  others := fun l hl hnew => (hkeeps.content l hl).trans (h.others l hl hnew)

/-- A free place is none of a new file. -/
theorem not_mem_of_free (h : Adds root base files t t') (hfree : t'.contentAt? l = none) :
    l ∉ files.map (NewFile.place base) := by
  intro hmem
  obtain ⟨f, hf, hplace⟩ := List.mem_map.1 hmem
  have hcontent := h.content f hf
  rw [hplace, hfree] at hcontent
  cases hcontent

theorem create (h : Adds root base files t t') {f : NewFile} (hplanned : IsPlanned f.names)
    (hfree : t'.contentAt? (f.place base) = none)
    (hcreates : Creates (f.path root) (f.place base) f.content t' t'') :
    Adds root base (f :: files) t t'' := by
  have hnew := h.not_mem_of_free hfree
  have hne : ∀ g ∈ files, g.place base ≠ f.place base := by
    intro g hg hsame
    exact hnew (hsame ▸ List.mem_map_of_mem hg)
  refine ⟨h.directories.trans (hcreates.keeps.mono fun _ hl => hl.elim), ?_, ?_, ?_, ?_, ?_, ?_⟩
  · exact List.forall_mem_cons.2 ⟨hplanned, h.planned⟩
  · exact List.forall_mem_cons.2
      ⟨hcreates.located, fun g hg => hcreates.keeps.locate (h.located g hg)⟩
  · refine List.forall_mem_cons.2 ⟨hcreates.content, fun g hg => ?_⟩
    rw [hcreates.keeps.content _ (hne g hg), h.content g hg]
  · refine List.forall_mem_cons.2 ⟨?_, h.new⟩
    rw [← h.others _ (not_inJournals_place hplanned) hnew]
    exact hfree
  · exact List.nodup_cons.2 ⟨hnew, h.distinct⟩
  · intro l hl hmem
    rw [List.map_cons, List.mem_cons, not_or] at hmem
    rw [hcreates.keeps.content l hmem.1, h.others l hl hmem.2]

/-- The last new file can be removed, and then it is as if it had never been made. -/
theorem remove {f : NewFile} (h : Adds root base (f :: files) t t') :
    ∃ t'', t'.removeFile (f.path root) = .ok t'' ∧ Adds root base files t t'' := by
  have hcontent := h.content f List.mem_cons_self
  have hdir : t'.node? (f.place base) ≠ some .directory := by
    rw [contentAt?_eq_some.1 hcontent]
    simp
  have hnil := ne_nil_of_node? hdir
  have hkeeps := keeps_drop t' hdir
  obtain ⟨hnotmem, hdistinct⟩ := List.nodup_cons.1 h.distinct
  have hne : ∀ g ∈ files, g.place base ≠ f.place base := by
    intro g hg hsame
    exact hnotmem (hsame ▸ List.mem_map_of_mem hg)
  refine ⟨t'.drop (f.place base), ?_, ?_⟩
  · exact removeFile_eq_ok.2 ⟨f.place base, f.content, h.located f List.mem_cons_self,
      contentAt?_eq_some.1 hcontent, rfl⟩
  refine ⟨h.directories.trans (hkeeps.mono fun _ hl => hl.elim),
    fun g hg => h.planned g (List.mem_cons_of_mem _ hg), ?_, ?_,
    fun g hg => h.new g (List.mem_cons_of_mem _ hg), hdistinct, ?_⟩
  · intro g hg
    exact hkeeps.locate (h.located g (List.mem_cons_of_mem _ hg))
  · intro g hg
    rw [hkeeps.content _ (hne g hg), h.content g (List.mem_cons_of_mem _ hg)]
  · intro l hl hmem
    by_cases hplace : l = f.place base
    · rw [hplace, contentAt?_drop t' hnil, if_pos rfl, h.new f List.mem_cons_self]
    · rw [hkeeps.content l hplace]
      refine h.others l hl ?_
      rw [List.map_cons, List.mem_cons, not_or]
      exact ⟨hplace, hmem⟩

/-- Removing all new files, the last one first, brings the first tree back. -/
theorem removeAll (h : Adds root base files t t') :
    Adds root base [] t (removeAll (files.map (NewFile.path root)) t') := by
  induction files generalizing t' with
  | nil => exact h
  | cons f files ih =>
    obtain ⟨t'', hremove, hrest⟩ := h.remove
    have hstep : Instantiation.removeAll ((f :: files).map (NewFile.path root)) t' =
        Instantiation.removeAll (files.map (NewFile.path root)) t'' := by
      rw [List.map_cons, removeAll_cons, hremove]
    rw [hstep]
    exact ih hrest

/-! ## Free places -/

/-- A path below the project finds the file that stands at its place, if there is one. -/
theorem locate_of_content {layout : Layout} (h : Adds layout.root base files t t')
    (hsite : Site layout base t) (hplain : ∀ n ∈ names, IsName n)
    (hjournal : ¬ [toolDirName, "ops"] <+: names) {P : Location → Prop} (hkeeps : Keeps P t' t'')
    (hl : t''.locate (layout.root.descend names) = .ok l) {b : ByteArray}
    (hb : t'.contentAt? l = some b) : l = base ++ names ∧
      (t.contentAt? l = some b ∧ t.locate (layout.root.descend names) = .ok l ∨
        ∃ f ∈ files, f.names = names) := by
  have hfound' : t''.walk layout.root = .ok base := hkeeps.walk (h.directories.walk hsite.found)
  have hplace := eq_of_locate_descend hplain hfound' hl
  refine ⟨hplace, ?_⟩
  by_cases hmem : l ∈ files.map (NewFile.place base)
  · obtain ⟨f, hf, hfl⟩ := List.mem_map.1 hmem
    exact Or.inr ⟨f, hf, List.append_cancel_left (hfl.trans hplace)⟩
  · have hout : ¬ InJournals base l := fun hin => hjournal (inJournals_append.1 (hplace ▸ hin))
    rw [h.others l hout hmem] at hb
    exact Or.inl ⟨hb, hsite.tree.locate hplain hsite.found hfound' hl
      (node?_ne_none_of_contentAt? hb)⟩

/-- Where a path finds nothing nothing stands, also at the place that it leads to later. -/
theorem free {layout : Layout} (h : Adds layout.root base files t t') (hsite : Site layout base t)
    (hplanned : IsPlanned names) (hhas : t'.has (layout.root.descend names) = false)
    {P : Location → Prop} (hkeeps : Keeps P t' t'')
    (hl : t''.locate (layout.root.descend names) = .ok l) : t'.contentAt? l = none := by
  cases hb : t'.contentAt? l with
  | none => rfl
  | some b =>
    exfalso
    obtain ⟨hplace, hfound⟩ :=
      h.locate_of_content hsite hplanned.plain hplanned.not_journal hkeeps hl hb
    have hlocate : t'.locate (layout.root.descend names) = .ok l := by
      rcases hfound with ⟨-, hlocate⟩ | ⟨f, hf, rfl⟩
      · exact h.directories.locate hlocate
      · rw [hplace]
        exact h.located f hf
    rw [has_of_locate hlocate (node?_ne_none_of_contentAt? hb)] at hhas
    cases hhas

end Adds

end AudioProject.Instantiation
