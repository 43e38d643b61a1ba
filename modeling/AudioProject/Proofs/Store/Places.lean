import AudioProject.Proofs.Document.RoundTrip
import AudioProject.Proofs.Files.Descent
import AudioProject.Proofs.Store.Writing

/-
  Documents, drafts and journals by the last name of their places: `<id>.xml`, `<document>.tmp`,
  `<operation>.json`. So a document is never in the way of a draft, of a journal, or of the
  document of another object, wherever the directories are.
-/

namespace AudioProject

open FileTree

/-! ## Plain names -/

theorem isName_metadataName : Path.IsName metadataName :=
  ⟨by decide, by decide, by decide, by decide⟩

theorem isName_toolDirName : Path.IsName toolDirName :=
  ⟨by decide, by decide, by decide, by decide⟩

theorem ObjectClass.isName_directory {c : ObjectClass} {dir : String}
    (h : c.directory? = some dir) : Path.IsName dir := by
  have hdir :
      dir ∈ ["EventFolder", "Event", "BankFolder", "Bank", "Group", "Asset", "AudioFile"] := by
    unfold directory? at h
    split at h <;> cases h <;> decide
  have hall : ∀ s ∈ ["EventFolder", "Event", "BankFolder", "Bank", "Group", "Asset", "AudioFile"],
      '/' ∉ s.toList ∧ s ≠ "" ∧ s ≠ "." ∧ s ≠ ".." := by decide
  obtain ⟨hslash, hempty, hdot, hdots⟩ := hall dir hdir
  exact ⟨hslash, hempty, hdot, hdots⟩

theorem ObjectId.isName_fileName (id : ObjectId) : Path.IsName id.fileName := by
  refine Path.isName_append ?_ (by decide) (by decide)
  intro h
  exact (id.isIdText.2 '/' h).2 (by decide)

theorem ObjectId.fileName_inj {id id' : ObjectId} (h : id.fileName = id'.fileName) : id = id' :=
  ObjectId.ext (String.append_left_inj _ |>.1 h)

/-! ## Last names -/

theorem FileTree.getLast?_of_join {t : FileTree} {p : Path} {name : String}
    (hname : Path.IsName name) {l : Location} (h : t.locate (p.join name) = .ok l) :
    l.getLast? = some name := by
  obtain ⟨base, -, -, -, rfl⟩ := (walk_join hname).1 (locate_eq_ok.1 h).2
  rw [List.getLast?_concat]

theorem Store.getLast?_objectPath {layout : Layout} {c : ObjectClass} {id : ObjectId} {path : Path}
    (hpath : layout.objectPath? c id = some path) {t : FileTree} {l : Location}
    (h : t.locate path = .ok l) : l.getLast? = some id.fileName := by
  obtain ⟨dir, -, rfl⟩ := Option.map_eq_some_iff.1 hpath
  exact getLast?_of_join id.isName_fileName h

theorem Store.getLast?_draft {t : FileTree} {path : Path} {l : Location}
    (h : t.locate (Store.draft path) = .ok l) : ∃ s, l.getLast? = some (s ++ ".tmp") := by
  have hslash : '/' ∉ (path.fileName?.getD "").toList := by
    cases hname : path.fileName? with
    | none => simp
    | some name => exact (Path.isName_of_fileName? hname).noSlash
  exact ⟨_, getLast?_of_join (Path.isName_append hslash (by decide) (by decide)) h⟩

/-- Without a name that ends like that of a draft there is no draft. -/
theorem Store.isFile_draft_of_keys {t : FileTree}
    (h : ∀ k ∈ t.nodes.keys, ∀ n ∈ k, ¬ ".tmp".toList <:+ n.toList) (path : Path) :
    t.isFile (Store.draft path) = false := by
  unfold FileTree.isFile
  split
  · next l b hfind =>
    exfalso
    obtain ⟨hl, hnode⟩ := find_eq_ok.1 hfind
    obtain ⟨s, hs⟩ := Store.getLast?_draft hl
    have hmem : s ++ ".tmp" ∈ l := List.mem_of_getLast? hs
    have hkey : l ∈ t.nodes.keys := mem_keys_of_node? (List.ne_nil_of_mem hmem) hnode
    refine h l hkey _ hmem ?_
    rw [String.toList_append]
    exact List.suffix_append _ _
  · rfl

theorem Journal.getLast?_journal {layout : Layout} {op : String} {t : FileTree} {l : Location}
    (h : t.locate (layout.journal op) = .ok l) : ∃ s, l.getLast? = some (s ++ ".json") := by
  -- the name of an operation may be any text, slashes included
  have htext : ∃ text, (layout.journal op) = ⟨text ++ ".json"⟩ := by
    unfold Layout.journal Path.join
    split
    · exact ⟨op, rfl⟩
    split
    · exact ⟨layout.journals.text ++ op, by rw [String.append_assoc]⟩
    · exact ⟨layout.journals.text ++ "/" ++ op, by simp only [String.append_assoc]⟩
  obtain ⟨text, htext⟩ := htext
  obtain ⟨front, last, htextPieces, hpieces⟩ := Path.pieces_append (s := ".json") (by decide) text
  rw [htext, locate_eq_ok] at h
  have hmem : last ∈ (⟨text⟩ : Path).pieces := by simp [htextPieces]
  have hlast : '/' ∉ last.toList := Path.not_slash_of_mem_pieces hmem
  have hname : Path.IsName (last ++ ".json") := Path.isName_append hlast (by decide) (by decide)
  obtain ⟨base, -, -, -, rfl⟩ := (walk_of_pieces hpieces hname).1 h.2
  exact ⟨last, List.getLast?_concat⟩

/-- Not a place for drafts or journals. -/
structure IsSettled (l : Location) : Prop where
  not_draft : ∀ s, l.getLast? ≠ some (s ++ ".tmp")
  not_journal : ∀ s, l.getLast? ≠ some (s ++ ".json")

theorem isSettled_of_xml {l : Location} {stem : String} (h : l.getLast? = some (stem ++ ".xml")) :
    IsSettled l := by
  have hne : ∀ (s ending : String) (c : Char), ending.toList.getLast? = some c → c ≠ 'l' →
      l.getLast? ≠ some (s ++ ending) := by
    intro s ending c hending hc heq
    rw [h] at heq
    have hchars := congrArg (fun s => s.toList.getLast?) (Option.some.inj heq)
    simp only [String.toList_append, List.getLast?_append, hending,
      show ".xml".toList.getLast? = some 'l' from rfl, Option.some_or] at hchars
    exact hc (Option.some.inj hchars).symm
  exact ⟨fun s => hne s _ 'p' rfl (by decide), fun s => hne s _ 'n' rfl (by decide)⟩

theorem isSettled_of_fileName {l : Location} {id : ObjectId} (h : l.getLast? = some id.fileName) :
    IsSettled l := isSettled_of_xml h

theorem not_isSettled_draft {t : FileTree} {path : Path} {l : Location}
    (h : t.locate (Store.draft path) = .ok l) : ¬ IsSettled l := by
  obtain ⟨s, hs⟩ := Store.getLast?_draft h
  exact fun hsettled => hsettled.not_draft s hs

theorem not_isSettled_journal {t : FileTree} {layout : Layout} {op : String} {l : Location}
    (h : t.locate (layout.journal op) = .ok l) : ¬ IsSettled l := by
  obtain ⟨s, hs⟩ := Journal.getLast?_journal h
  exact fun hsettled => hsettled.not_journal s hs

/-- A place where no draft and no journal is, and not the document of `id` either. -/
def IsOther (id : ObjectId) (l : Location) : Prop := IsSettled l ∧ l.getLast? ≠ some id.fileName

/-- A written document can be read, and what is at other places is as before. -/
theorem Store.writeDocument_reads {s : Store} {o : Object} {os : List Object} {t t' : FileTree}
    {path : Path} (h : s.writeDocument (o :: os) t = .ok path t') :
    s.layout.objectPath? o.objectClass o.id = some path ∧
      t'.read path = .ok (s.documentBytes (o :: os)) ∧ Keeps (IsOther o.id) t t' := by
  obtain ⟨hpath, -, hwrite⟩ := writeDocument_eq_ok h
  obtain ⟨t₀, ld, lp, -, hld, hlp, -, hcontent, hkeeps⟩ := writeFile_writes hwrite
  have hlast := getLast?_objectPath hpath hlp
  have hne : ld ≠ lp := by
    intro hsame
    exact not_isSettled_draft hld (isSettled_of_fileName (hsame ▸ hlast))
  refine ⟨hpath, read_eq_ok.2 ⟨lp, hlp, hcontent hne⟩, hkeeps.mono ?_⟩
  intro l hl
  constructor
  · intro hsame
    exact not_isSettled_draft hld (hsame ▸ hl.1)
  · intro hsame
    exact hl.2 (hsame ▸ hlast)

theorem Store.fromUTF8?_documentBytes (s : Store) (os : List Object) :
    String.fromUTF8? (s.documentBytes os) = some (Document.print ⟨s.model, os⟩) := by
  have hvalid : (s.documentBytes os).IsValidUTF8 := (Document.print ⟨s.model, os⟩).isValidUTF8
  rw [String.fromUTF8?, dif_pos hvalid]
  rfl

/-- What was written as a document is read as that document. -/
theorem Store.readDocument_of_read {s : Store} {os : List Object} {t : FileTree} {path : Path}
    (hclasses : (⟨s.model, os⟩ : Document).HasNamedClasses)
    (hread : t.read path = .ok (s.documentBytes os)) :
    readDocument t path = .ok ⟨s.model, os⟩ := by
  have htext : t.readText path = .ok (Document.print ⟨s.model, os⟩) := by
    unfold readText
    rw [hread]
    dsimp only
    rw [fromUTF8?_documentBytes]
  unfold readDocument
  rw [htext, mapError_ok, ok_bind, Document.parse_print hclasses, mapError_ok]

/-- A document that could not be written leaves the others as they were. -/
theorem Store.writeDocument_fails {s : Store} {os : List Object} {t t' : FileTree}
    {e : Store.Error} (h : s.writeDocument os t = .error e t') : Keeps IsSettled t t' := by
  rcases os with _ | ⟨o, os⟩
  · cases h
    exact .refl _ _
  rcases writeDocument_eq_error h with rfl | ⟨path, -, -, hwrite⟩
  · exact .refl _ _
  rcases writeFile_fails hwrite with hkeeps | ⟨t₀, ld, -, hld, -, hkeeps⟩
  · exact hkeeps.mono fun _ _ => trivial
  refine hkeeps.mono ?_
  intro l hl hsame
  exact not_isSettled_draft hld (hsame ▸ hl)

end AudioProject
