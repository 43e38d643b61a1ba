import AudioProject.Config
import AudioProject.Proofs.Instantiation.Growth

/-
  The paths of a project as names below its directory: documents with their drafts, journals and
  media. An assets directory that passes its check holds neither documents nor journals, so media
  stand at places of their own (`exists_mediaNames`).
-/

namespace AudioProject

open AudioProject.Path Text

theorem AssetPath.isName {p : AssetPath} {n : String} (h : n ∈ p.components) : IsName n := by
  obtain ⟨hempty, hdot, hdots, hchars⟩ := p.valid n h
  exact ⟨fun hslash => (hchars '/' hslash).1 rfl, hempty, hdot, hdots⟩

namespace Instantiation

variable {layout : Layout} {base : Location} {t t' : FileTree}

/-! ## Documents -/

/-- The names of a document. -/
def documentNames (dir : String) (id : ObjectId) : List String := [metadataName, dir, id.fileName]

/-- The names of the draft of a document. -/
def draftNames (dir : String) (id : ObjectId) : List String :=
  [metadataName, dir, id.fileName ++ ".tmp"]

theorem isName_draftName (id : ObjectId) : IsName (id.fileName ++ ".tmp") :=
  isName_append id.isName_fileName.noSlash (by decide) (by decide)

theorem objectPath?_eq_some {c : ObjectClass} {id : ObjectId} {path : Path}
    (h : layout.objectPath? c id = some path) :
    ∃ dir, c.directory? = some dir ∧ IsName dir ∧
      path = layout.root.descend (documentNames dir id) ∧
      Store.draft path = layout.root.descend (draftNames dir id) := by
  obtain ⟨dir, hdir, rfl⟩ := Option.map_eq_some_iff.1 h
  have hname := ObjectClass.isName_directory hdir
  refine ⟨dir, hdir, hname, rfl, ?_⟩
  have hpieces := (layout.metadata.pieces_join hname.noSlash)
  obtain ⟨front, hpieces, -⟩ := hpieces
  have hparent := parent?_join (p := layout.documentDir dir) hpieces hname id.isName_fileName
  have hfile := fileName?_join (layout.documentDir dir) id.isName_fileName
  unfold Store.draft Store.draftName
  rw [hparent, hfile]
  rfl

theorem plain_documentNames {dir : String} (hdir : IsName dir) (id : ObjectId) :
    ∀ n ∈ documentNames dir id, IsName n := by
  simp only [documentNames, List.forall_mem_cons]
  exact ⟨isName_metadataName, hdir, id.isName_fileName, by simp⟩

theorem plain_draftNames {dir : String} (hdir : IsName dir) (id : ObjectId) :
    ∀ n ∈ draftNames dir id, IsName n := by
  simp only [draftNames, List.forall_mem_cons]
  exact ⟨isName_metadataName, hdir, isName_draftName id, by simp⟩

theorem not_journal_of_head {names : List String} (h : names.head? ≠ some toolDirName) :
    ¬ [toolDirName, "ops"] <+: names := by
  intro h'
  obtain ⟨rest, rfl⟩ := h'
  exact h rfl

theorem isPlanned_documentNames {dir : String} (hdir : IsName dir) (id : ObjectId) :
    IsPlanned (documentNames dir id) where
  plain := plain_documentNames hdir id
  not_journal := not_journal_of_head (by simp [documentNames, metadataName, toolDirName])
  not_draft := by
    intro dir' id' h
    have hlast : id.fileName = id'.fileName ++ ".tmp" := by
      simpa [documentNames] using (List.cons.inj (List.cons.inj h).2).2
    have hchars := congrArg (fun s => s.toList.getLast?) hlast
    simp only [ObjectId.fileName, String.toList_append, List.getLast?_append,
      show ".xml".toList.getLast? = some 'l' from rfl,
      show ".tmp".toList.getLast? = some 'p' from rfl, Option.some_or] at hchars
    exact absurd (Option.some.inj hchars) (by decide)

/-! ## Journals -/

/-- The names of a journal. -/
def journalNames (op : String) : List String := [toolDirName, "ops", op ++ ".json"]

/-- Where the project is, the path of a journal leads into the directory of journals. -/
theorem eq_of_locate_journal (hfound : t.walk layout.root = .ok base) {op : String}
    (hop : '/' ∉ op.toList) {l : Location} (hl : t.locate (layout.journal op) = .ok l) :
    l = base ++ journalNames op := by
  have hname : IsName (op ++ ".json") := isName_append hop (by decide) (by decide)
  have hplain : ∀ n ∈ journalNames op, IsName n := by
    simp only [journalNames, List.forall_mem_cons]
    exact ⟨isName_toolDirName, ⟨by decide, by decide, by decide, by decide⟩, hname, by simp⟩
  exact FileTree.eq_of_locate_descend hplain hfound hl

theorem inJournals_journal (base : Location) (op : String) :
    InJournals base (base ++ journalNames op) := inJournals_append.2 ⟨[op ++ ".json"], rfl⟩

/-- It does so as long as the project stays there. -/
theorem avoids_journal (hfound : t.walk layout.root = .ok base) {op : String}
    (hop : '/' ∉ op.toList) :
    Journal.Avoids (fun l => ¬ InJournals base l) t (layout.journal op) :=
  fun _ _ hkeeps hl hout => hout <|
    eq_of_locate_journal (hkeeps.walk hfound) hop hl ▸ inJournals_journal base op

/-! ## Media -/

/-- The names of the assets directory. -/
def assetsNames (layout : Layout) : List String := fields '/' layout.assetsDir

/-- Names that lead to the assets directory, or to something below it. -/
structure IsAssets (names : List String) : Prop where
  plain : ∀ n ∈ names, IsName n
  ne_nil : names ≠ []
  not_documents : names.head? ≠ some metadataName
  not_tool : names.head? ≠ some toolDirName

theorem IsAssets.append {names more : List String} (h : IsAssets names)
    (hmore : ∀ n ∈ more, IsName n) : IsAssets (names ++ more) := by
  have hhead : (names ++ more).head? = names.head? := by
    obtain ⟨first, rest, hfirst⟩ := List.exists_cons_of_ne_nil h.ne_nil
    rw [hfirst]
    rfl
  refine ⟨fun n hn => ?_, by simp [h.ne_nil], hhead ▸ h.not_documents, hhead ▸ h.not_tool⟩
  rcases List.mem_append.1 hn with hn | hn
  · exact h.plain n hn
  · exact hmore n hn

theorem IsAssets.isPlanned {names : List String} (h : IsAssets names) : IsPlanned names where
  plain := h.plain
  not_journal := not_journal_of_head h.not_tool
  not_draft := by
    intro dir id hdraft
    refine h.not_documents ?_
    rw [hdraft]
    rfl

theorem isAssets_of_check (h : Settings.checkAssetsDir layout.assetsDir = .ok ()) :
    IsAssets (assetsNames layout) := by
  have hne : assetsNames layout ≠ [] := pieces_ne_nil ⟨layout.assetsDir⟩
  have hslash : ∀ n ∈ assetsNames layout, '/' ∉ n.toList := fun n hn =>
    not_slash_of_mem_pieces (p := ⟨layout.assetsDir⟩) hn
  unfold Settings.checkAssetsDir at h
  dsimp only at h
  split at h
  · cases h
  split at h
  · cases h
  split at h
  · cases h
  next hsilent =>
  split at h
  · cases h
  next hreserved =>
  rw [not_or] at hreserved
  have hhead : ∀ s, (assetsNames layout).headD "" ≠ s → (assetsNames layout).head? ≠ some s := by
    intro s hs hhead
    obtain ⟨first, rest, hfirst⟩ := List.exists_cons_of_ne_nil hne
    rw [hfirst] at hs hhead
    exact hs (Option.some.inj hhead)
  refine ⟨fun n hn => ?_, hne, hhead _ hreserved.1, hhead _ hreserved.2⟩
  have hn' : ¬ (n = "" ∨ n = "." ∨ n = "..") := by
    intro hbad
    refine hsilent (List.any_eq_true.2 ⟨n, hn, ?_⟩)
    simpa [or_assoc] using hbad
  rw [not_or, not_or] at hn'
  exact ⟨hslash n hn, hn'.1, hn'.2.1, hn'.2.2⟩

/-- The directory of an asset folder by names. -/
theorem assetDir_eq (h : Settings.checkAssetsDir layout.assetsDir = .ok ()) (p : AssetPath) :
    layout.assetDir p = layout.root.descend (assetsNames layout ++ p.components) := by
  have hassets := isAssets_of_check h
  have htext : joined "/" (assetsNames layout) = layout.assetsDir :=
    text_of_pieces ⟨layout.assetsDir⟩
  have hroot : layout.assetsRoot = layout.root.descend (assetsNames layout) := by
    rw [← join_joined layout.root hassets.plain hassets.ne_nil, htext]
    rfl
  rw [descend_append, ← hroot]
  rfl

/-- Media go to places of their own. -/
theorem exists_mediaNames (h : Settings.checkAssetsDir layout.assetsDir = .ok ()) (p : AssetPath)
    {name : String} (hname : IsName name) :
    ∃ names, (layout.assetDir p).join name = layout.root.descend names ∧ IsAssets names := by
  refine ⟨assetsNames layout ++ p.components ++ [name], ?_, ?_⟩
  · rw [assetDir_eq h, descend_concat]
  · refine ((isAssets_of_check h).append fun n hn => AssetPath.isName hn).append fun n hn => ?_
    rw [List.mem_singleton.1 hn]
    exact hname

end Instantiation

end AudioProject
