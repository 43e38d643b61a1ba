import AudioProject.Proofs.Files.WellFormed
import AudioProject.Proofs.Store.Loading
import Mathlib.Data.List.Nodup

/-
  The documents of a project by their places. Below `Metadata` a directory holds documents, whose
  names end in `.xml`; what is read from it depends on the contents at these places alone, by name
  (`documentsIn_eq_ok_iff`, `mem_fileNames`). So a tree that keeps the contents of documents keeps
  what is read of a project.
-/

namespace AudioProject

open FileTree AudioProject.Path

/-! ## Listing a directory -/

namespace FileTree

theorem mem_namesIn {t : FileTree} {l : Location} {n : String} :
    n ∈ t.namesIn l ↔ t.node? (l ++ [n]) ≠ none := by
  have hnil : l ++ [n] ≠ [] := by simp
  have hkeys : t.node? (l ++ [n]) ≠ none ↔ l ++ [n] ∈ t.nodes.keys := by
    rw [node?, if_neg hnil, OrderedMap.mem_keys_iff, Option.ne_none_iff_exists']
  rw [hkeys]
  unfold namesIn
  rw [List.mem_filterMap]
  constructor
  · rintro ⟨k, hk, hname⟩
    split at hname
    · next name _ =>
      split at hname
      · next hsame =>
        cases hname
        rwa [← hsame]
      · cases hname
    · cases hname
  · intro hmem
    refine ⟨l ++ [n], hmem, ?_⟩
    rw [List.getLast?_concat]
    exact if_pos rfl

theorem nodup_namesIn (t : FileTree) (l : Location) : (t.namesIn l).Nodup := by
  refine List.Nodup.filterMap ?_ t.nodes.nodup
  intro k k' name hname hname'
  grind

end FileTree

namespace Store

variable {t t' : FileTree} {l : Layout} {base : Location} {dir n : String}

/-! ## Names and places -/

/-- The file name of a document. -/
structure IsXml (n : String) : Prop where
  plain : IsName n
  ending : ∃ stem, stem ≠ "" ∧ n = stem ++ ".xml"

theorem isXml_fileName (id : ObjectId) : IsXml id.fileName where
  plain := id.isName_fileName
  ending := ⟨id.text, fun h => id.isIdText.1 (h ▸ rfl), rfl⟩

/-- A directory of documents. -/
structure IsDocumentDir (dir : String) : Prop where
  plain : IsName dir
  size : dir.utf8ByteSize ≤ maxNameBytes
  not_draft : ¬ ".tmp".toList <:+ dir.toList
  not_journal : ¬ ".json".toList <:+ dir.toList

/-- The names of a document in a directory. -/
def namesOf (dir n : String) : List String := [metadataName, dir, n]

theorem isName_namesOf (hdir : IsDocumentDir dir) (hn : IsXml n) : ∀ m ∈ namesOf dir n, IsName m := by
  simp only [namesOf, List.forall_mem_cons]
  exact ⟨isName_metadataName, hdir.plain, hn.plain, by simp⟩

theorem isSettled_of_isXml {n : String} {l : Location} (hn : IsXml n) (h : l.getLast? = some n) :
    IsSettled l := by
  obtain ⟨stem, -, rfl⟩ := hn.ending
  exact isSettled_of_xml h

theorem isSettled_namesOf (base : Location) (dir : String) (hn : IsXml n) :
    IsSettled (base ++ namesOf dir n) :=
  isSettled_of_isXml hn (by simp [namesOf])

theorem isSettled_documentDir (base : Location) (hdir : IsDocumentDir dir) :
    IsSettled (base ++ [metadataName, dir]) := by
  have hlast : (base ++ [metadataName, dir]).getLast? = some dir := by simp
  constructor
  · intro s hs
    obtain rfl := Option.some.inj (hlast.symm.trans hs)
    exact hdir.not_draft (by simp [String.toList_append])
  · intro s hs
    obtain rfl := Option.some.inj (hlast.symm.trans hs)
    exact hdir.not_journal (by simp [String.toList_append])

/-- A place where a document of the project at `base` stands, in whichever directory. -/
structure IsDocumentPlace (base j : Location) : Prop where
  below : base ++ [metadataName] <+: j
  xml : ∃ n, j.getLast? = some n ∧ IsXml n

theorem IsDocumentPlace.isSettled {base j : Location} (h : IsDocumentPlace base j) :
    IsSettled j := by
  obtain ⟨n, hlast, hn⟩ := h.xml
  exact isSettled_of_isXml hn hlast

theorem isDocumentPlace_namesOf (base : Location) (dir : String) (hn : IsXml n) :
    IsDocumentPlace base (base ++ namesOf dir n) :=
  ⟨⟨[dir, n], by simp [namesOf]⟩, n, by simp [namesOf], hn⟩

theorem isDocumentDir_of_directory {c : ObjectClass} (h : c.directory? = some dir) :
    IsDocumentDir dir := by
  have hdir :
      dir ∈ ["EventFolder", "Event", "BankFolder", "Bank", "Group", "Asset", "AudioFile"] := by
    unfold ObjectClass.directory? at h
    split at h <;> cases h <;> decide
  have hall : ∀ s ∈ ["EventFolder", "Event", "BankFolder", "Bank", "Group", "Asset", "AudioFile"],
      s.utf8ByteSize ≤ maxNameBytes ∧ ¬ ".tmp".toList <:+ s.toList ∧
        ¬ ".json".toList <:+ s.toList := by decide
  obtain ⟨hsize, hdraft, hjournal⟩ := hall dir hdir
  exact ⟨ObjectClass.isName_directory h, hsize, hdraft, hjournal⟩

/-- Each directory of a kind is the directory of a class. -/
theorem isDocumentDir_of_mem {k : Kind} (h : dir ∈ k.directories) : IsDocumentDir dir := by
  have hclass : ∃ c : ObjectClass, c.directory? = some dir := by
    cases k with
    | eventFolder => exact ⟨.eventFolder, (List.mem_singleton.1 h) ▸ rfl⟩
    | assetFolder => exact ⟨.assetFolder, (List.mem_singleton.1 h) ▸ rfl⟩
    | bus => exact ⟨.mixerGroup, (List.mem_singleton.1 h) ▸ rfl⟩
    | bank =>
      rcases List.mem_cons.1 h with rfl | h
      · exact ⟨.bankFolder, rfl⟩
      · exact ⟨.bank, (List.mem_singleton.1 h) ▸ rfl⟩
  obtain ⟨c, hc⟩ := hclass
  exact isDocumentDir_of_directory hc

/-- The project is at `base`, in a tree as it is on a disk. -/
structure Anchored (t : FileTree) (l : Layout) (base : Location) : Prop where
  well : t.WellFormed
  root : t.walk l.root = .ok base
  metadata : t.node? (base ++ [metadataName]) = some .directory

theorem Anchored.keeps (h : Anchored t l base) {P : Location → Prop} (hkeeps : Keeps P t t')
    (hwell : t'.WellFormed) : Anchored t' l base :=
  ⟨hwell, hkeeps.walk h.root, hkeeps.directory _ h.metadata⟩

/-! ## One document -/

theorem read_document (h : Anchored t l base) (hdir : IsDocumentDir dir) (hn : IsXml n)
    {b : ByteArray} : t.read ((l.documentDir dir).join n) = .ok b ↔
      Proper l.root (namesOf dir n) ∧ t.contentAt? (base ++ namesOf dir n) = some b :=
  h.well.read_descend h.root (isName_namesOf hdir hn)

theorem locate_document (h : Anchored t l base) (hdir : IsDocumentDir dir) (hn : IsXml n)
    (hproper : Proper l.root (namesOf dir n)) {b : ByteArray}
    (hcontent : t.contentAt? (base ++ namesOf dir n) = some b) :
    t.locate ((l.documentDir dir).join n) = .ok (base ++ namesOf dir n) := by
  obtain ⟨j, hj, -⟩ := read_eq_ok.1 ((read_document h hdir hn).2 ⟨hproper, hcontent⟩)
  rw [hj, eq_of_locate_descend (isName_namesOf hdir hn) h.root hj]

theorem isFile_document (h : Anchored t l base) (hdir : IsDocumentDir dir) (hn : IsXml n) :
    t.isFile ((l.documentDir dir).join n) = true ↔
      Proper l.root (namesOf dir n) ∧ ∃ b, t.contentAt? (base ++ namesOf dir n) = some b :=
  h.well.isFile_descend h.root (isName_namesOf hdir hn)

theorem readText_eq_ok {p : Path} {s : String} :
    t.readText p = .ok s ↔ ∃ b, t.read p = .ok b ∧ String.fromUTF8? b = some s := by
  unfold readText
  cases t.read p with
  | error e => simp
  | ok b => cases hs : String.fromUTF8? b <;> simp [hs]

theorem mapError_eq_ok {ε ε' α : Type} {f : ε → ε'} {x : Except ε α} {a : α} :
    x.mapError f = .ok a ↔ x = .ok a := by
  cases x <;> simp [Except.mapError]

theorem readDocument_eq_ok {p : Path} {d : Document} :
    readDocument t p = .ok d ↔
      ∃ b s, t.read p = .ok b ∧ String.fromUTF8? b = some s ∧ Document.parse s = .ok d := by
  unfold readDocument
  simp only [bind_eq_ok, mapError_eq_ok, readText_eq_ok]
  constructor
  · rintro ⟨s, ⟨b, hb, hs⟩, hd⟩
    exact ⟨b, s, hb, hs, hd⟩
  · rintro ⟨b, s, hb, hs, hd⟩
    exact ⟨s, ⟨b, hb, hs⟩, hd⟩

/-- A file that is read as before holds the same document. -/
theorem readDocument_of_reads {p : Path} {d : Document}
    (hread : ∀ b, t.read p = .ok b → t'.read p = .ok b) (h : readDocument t p = .ok d) :
    readDocument t' p = .ok d := by
  obtain ⟨b, s, hb, hs, hd⟩ := readDocument_eq_ok.1 h
  exact readDocument_eq_ok.2 ⟨b, s, hread b hb, hs, hd⟩

theorem readRequired_eq_ok {p : Path} {d : Document} :
    readRequired t p = .ok d ↔ readDocument t p = .ok d := by
  unfold readRequired
  split
  · exact Iff.rfl
  · next hhas =>
    constructor
    · intro h
      cases h
    · intro h
      obtain ⟨b, -, hb, -, -⟩ := readDocument_eq_ok.1 h
      obtain ⟨l, hl, hcontent⟩ := read_eq_ok.1 hb
      exact absurd (has_of_locate hl (node?_ne_none_of_contentAt? hcontent)) hhas

/-! ## The documents in a directory -/

/-- The file names of the documents in a directory, in the order in which they are read. -/
def fileNames (t : FileTree) (l : Layout) (base : Location) (dir : String) : List String :=
  ((t.namesIn (base ++ [metadataName, dir])).mergeSort (· ≤ ·)).filter fun n =>
    t.isFile ((l.documentDir dir).join n) && ((l.documentDir dir).join n).extension? = some "xml"

theorem mem_fileNames (h : Anchored t l base) (hdir : IsDocumentDir dir) :
    n ∈ fileNames t l base dir ↔ IsXml n ∧ Proper l.root (namesOf dir n) ∧
      ∃ b, t.contentAt? (base ++ namesOf dir n) = some b := by
  have hplace : base ++ [metadataName, dir] ++ [n] = base ++ namesOf dir n := by simp [namesOf]
  unfold fileNames
  rw [List.mem_filter, List.mem_mergeSort, mem_namesIn, hplace, Bool.and_eq_true,
    decide_eq_true_iff]
  constructor
  · rintro ⟨hnode, hfile, hending⟩
    have hplain : IsName n := h.well.names _ hnode n (by simp [namesOf])
    have hxml : IsXml n := ⟨hplain, (extension?_join _ hplain).1 hending⟩
    exact ⟨hxml, (isFile_document h hdir hxml).1 hfile⟩
  · rintro ⟨hxml, hproper, b, hb⟩
    exact ⟨node?_ne_none_of_contentAt? hb, (isFile_document h hdir hxml).2 ⟨hproper, b, hb⟩,
      (extension?_join _ hxml.plain).2 hxml.ending⟩

/-- The names ascend, so their order says nothing of the order in the tree. -/
theorem pairwise_fileNames (t : FileTree) (l : Layout) (base : Location) (dir : String) :
    (fileNames t l base dir).Pairwise (· < ·) := by
  refine List.Pairwise.filter _ ?_
  have hsorted : (List.mergeSort (t.namesIn (base ++ [metadataName, dir]))
      fun a b : String => decide (a ≤ b)).Pairwise fun a b => decide (a ≤ b) = true :=
    List.pairwise_mergeSort
      (fun a b c hab hbc => by simpa using String.le_trans (by simpa using hab) (by simpa using hbc))
      (fun a b => by simpa using String.le_total a b) _
  have hnodup := (List.mergeSort_perm (t.namesIn (base ++ [metadataName, dir]))
    (fun a b : String => decide (a ≤ b))).nodup_iff.2 (nodup_namesIn _ _)
  refine (hsorted.and hnodup).imp ?_
  rintro a b ⟨hle, hne⟩
  exact String.not_le.1 fun hge => hne (String.le_antisymm (by simpa using hle) hge)

theorem text_documentDir_ne (l : Layout) (hdir : IsDocumentDir dir) :
    (l.documentDir dir).text ≠ "" := by
  intro hempty
  obtain ⟨front, hpieces, -⟩ := l.metadata.pieces_join hdir.plain.noSlash
  have hempty : (l.metadata.join dir).pieces = [""] := by
    have htext : l.metadata.join dir = ⟨""⟩ := congrArg Path.mk hempty
    rw [htext]
    rfl
  rw [hempty] at hpieces
  have hlast := congrArg List.getLast? hpieces
  rw [List.getLast?_concat] at hlast
  exact hdir.plain.ne_empty (Option.some.inj hlast).symm

theorem locate_documentDir (h : Anchored t l base) (hdir : IsDocumentDir dir)
    (hcheck : check (l.documentDir dir) = .ok ()) :
    t.locate (l.documentDir dir) = .ok (base ++ [metadataName, dir]) := by
  have hnames : ∀ m ∈ [metadataName, dir], IsName m := by
    simp only [List.forall_mem_cons]
    exact ⟨isName_metadataName, hdir.plain, by simp⟩
  have hbase : t.node? base = some .directory :=
    h.well.tree base metadataName (by simp [h.metadata])
  exact locate_eq_ok.2 ⟨hcheck, (walk_descend hnames).2 ⟨base, h.root,
    ⟨hbase, (by decide), h.metadata, hdir.size, trivial⟩, rfl⟩⟩

/-- A directory that is missing is one without documents. -/
theorem list_documentDir (h : Anchored t l base) (hdir : IsDocumentDir dir) {names : List String} :
    t.list (l.documentDir dir) = .ok names ∨ t.list (l.documentDir dir) = .error .notFound ∧ names = []
      ↔ check (l.documentDir dir) = .ok () ∧
        t.contentAt? (base ++ [metadataName, dir]) = none ∧
        names = t.namesIn (base ++ [metadataName, dir]) := by
  cases hcheck : check (l.documentDir dir) with
  | error e =>
    have hlist : t.list (l.documentDir dir) = .error e := by
      unfold FileTree.list FileTree.find FileTree.locate
      rw [hcheck]
      rfl
    have he : e ≠ .notFound := by
      rintro rfl
      unfold check at hcheck
      rw [if_neg (text_documentDir_ne l hdir)] at hcheck
      split at hcheck
      · cases hcheck
      · split at hcheck <;> cases hcheck
    rw [hlist]
    simp [he]
  | ok u =>
    have hlocate := locate_documentDir h hdir hcheck
    cases hnode : t.node? (base ++ [metadataName, dir]) with
    | none =>
      have hlist : t.list (l.documentDir dir) = .error .notFound := by
        simp only [FileTree.list, FileTree.find, hlocate, ok_bind, hnode]
      have hnil : t.namesIn (base ++ [metadataName, dir]) = [] := by
        refine List.eq_nil_iff_forall_not_mem.2 fun n hn => ?_
        have hdirectory := h.well.tree _ n (mem_namesIn.1 hn)
        rw [hnode] at hdirectory
        cases hdirectory
      simp [hlist, contentAt?, hnode, hnil]
    | some node =>
      have hfind := find_eq_ok.2 ⟨hlocate, hnode⟩
      unfold FileTree.list contentAt?
      rw [hfind, hnode]
      cases node <;> simp [eq_comm]

/-- `e` is what is read under a name in a directory. -/
def Reads (t : FileTree) (l : Layout) (dir n : String) (e : Path × Document) : Prop :=
  e.1 = (l.documentDir dir).join n ∧ readDocument t e.1 = .ok e.2

theorem reads_iff {e : Path × Document} : Reads t l dir n e ↔
    ((readDocument t ((l.documentDir dir).join n)).map fun d => ((l.documentDir dir).join n, d)) =
      .ok e := by
  obtain ⟨p, d⟩ := e
  cases hd : readDocument t ((l.documentDir dir).join n) with
  | error e =>
    constructor
    · rintro ⟨rfl, hnot⟩
      rw [hd] at hnot
      cases hnot
    · intro hnot
      cases hnot
  | ok d' =>
    constructor
    · rintro ⟨rfl, hsame⟩
      rw [hd] at hsame
      cases hsame
      rfl
    · intro hsame
      cases hsame
      exact ⟨rfl, hd⟩

/-- Of the names in a directory, those of documents are read. -/
theorem mapM_eq_ok_iff_reads (names : List String) {ds : List (Path × Document)} :
    (((names.map (l.documentDir dir).join).filter fun p =>
        t.isFile p && p.extension? = some "xml").mapM fun p =>
          (readDocument t p).map fun d => (p, d)) = .ok ds ↔
      List.Forall₂ (Reads t l dir) (names.filter fun n => t.isFile ((l.documentDir dir).join n) &&
        ((l.documentDir dir).join n).extension? = some "xml") ds := by
  rw [List.filter_map, mapM_eq_ok_iff, List.forall₂_map_left_iff]
  exact iff_of_eq (congrArg (fun R => List.Forall₂ R _ ds)
    (funext fun n => funext fun e => propext reads_iff.symm))

/-- What is read from a directory: each document under its name, in the order of the names. -/
theorem documentsIn_eq_ok_iff (h : Anchored t l base) (hdir : IsDocumentDir dir)
    {ds : List (Path × Document)} : documentsIn t (l.documentDir dir) = .ok ds ↔
      check (l.documentDir dir) = .ok () ∧ t.contentAt? (base ++ [metadataName, dir]) = none ∧
        List.Forall₂ (Reads t l dir) (fileNames t l base dir) ds := by
  constructor
  · intro hds
    unfold documentsIn at hds
    cases hlist : t.list (l.documentDir dir) with
    | error e =>
      rw [hlist] at hds
      cases e with
      | notFound =>
        cases hds
        obtain ⟨hcheck, hcontent, hnames⟩ := (list_documentDir h hdir).1 (Or.inr ⟨hlist, rfl⟩)
        refine ⟨hcheck, hcontent, ?_⟩
        unfold fileNames
        rw [← hnames, List.mergeSort_nil]
        exact .nil
      | _ => cases hds
    | ok names =>
      rw [hlist] at hds
      obtain ⟨hcheck, hcontent, rfl⟩ := (list_documentDir h hdir).1 (Or.inl hlist)
      exact ⟨hcheck, hcontent, (mapM_eq_ok_iff_reads _).1 hds⟩
  · rintro ⟨hcheck, hcontent, hall⟩
    unfold documentsIn
    rcases (list_documentDir h hdir).2 ⟨hcheck, hcontent, rfl⟩ with hlist | ⟨hlist, hnil⟩
    · rw [hlist]
      exact (mapM_eq_ok_iff_reads _).2 hall
    · rw [hlist]
      unfold fileNames at hall
      rw [hnil, List.mergeSort_nil, List.filter_nil] at hall
      cases hall
      rfl

/-! ## One document more -/

/-- A file comes to a place where nothing was; all other settled places are as before. -/
structure Comes (place : Location) (b : ByteArray) (t t' : FileTree) : Prop where
  absent : t.contentAt? place = none
  content : t'.contentAt? place = some b
  others : Keeps (fun j => IsSettled j ∧ j ≠ place) t t'

theorem wellFormed_place {draft path : Path} {b : ByteArray} (h : t.WellFormed) :
    ((place draft path b).after t).WellFormed := by
  unfold place
  refine h.after_bind (fun h => ?_) fun done t₁ h₁ => ?_
  · rw [Action.after_outcome]
    refine h.after_bind (fun h => h.after_changing fun _ => h.write) fun _ t₁ h₁ => ?_
    refine h₁.after_changing fun t₂ hrename => ?_
    obtain ⟨_, _, -, hwrite, hremove⟩ := rename_eq_ok.1 hrename
    exact (h₁.write hwrite).removeFile hremove
  · cases done with
    | ok _ => exact h₁
    | error _ =>
      refine h₁.after_bind (fun h => ?_) fun _ _ h₂ => h₂
      rw [Action.after_outcome]
      exact h.after_changing fun _ => h.removeFile

theorem after_wrapping {σ ε ε' α : Type} (wrap : ε → ε') (x : Action σ ε α) (s : σ) :
    (Action.wrapping wrap x).after s = x.after s := by
  unfold Action.after Action.wrapping
  cases x s <;> rfl

theorem wellFormed_writeFile {path : Path} {b : ByteArray} (h : t.WellFormed) :
    ((writeFile path b).after t).WellFormed := by
  unfold writeFile
  refine h.after_bind (fun h => ?_) fun _ t₁ h₁ => ?_
  · rw [after_wrapping]
    exact h.createDirs _
  · rw [after_wrapping]
    exact wellFormed_place h₁

theorem wellFormed_writeDocument {s : Store} {os : List Object} (h : t.WellFormed) :
    ((s.writeDocument os).after t).WellFormed := by
  rcases os with _ | ⟨o, os⟩
  · exact h
  cases hwrite : s.writeDocument (o :: os) t with
  | ok path t' =>
    rw [Action.after_of_ok hwrite, ← Action.after_of_ok (writeDocument_eq_ok hwrite).2.2]
    exact wellFormed_writeFile h
  | error e t' =>
    rw [Action.after_of_error hwrite]
    rcases writeDocument_eq_error hwrite with rfl | ⟨path, -, -, hfile⟩
    · exact h
    · rw [← Action.after_of_error hfile]
      exact wellFormed_writeFile h

theorem wellFormed_commit {s : Store} {k : Kind} {o : Object} {os : List Object}
    (h : t.WellFormed) : ((s.commit k (o :: os)).after t).WellFormed := by
  cases hcommit : s.commit k (o :: os) t with
  | ok result t' =>
    obtain ⟨-, -, -, hwrite⟩ := commit_eq_ok hcommit
    rw [Action.after_of_ok hcommit, ← Action.after_of_ok hwrite]
    exact wellFormed_writeDocument h
  | error e t' =>
    rw [Action.after_of_error hcommit]
    rcases commit_eq_error hcommit with ⟨-, rfl⟩ | hwrite
    · exact h
    · rw [← Action.after_of_error hwrite]
      exact wellFormed_writeDocument h

/-- A document is written to its place, where nothing was. -/
theorem writeDocument_comes {s : Store} {o : Object} {os : List Object} {path : Path}
    (h : Anchored t s.layout base) (hwrite : s.writeDocument (o :: os) t = .ok path t') :
    ∃ dir, o.objectClass.directory? = some dir ∧
      path = (s.layout.documentDir dir).join o.id.fileName ∧
      Proper s.layout.root (namesOf dir o.id.fileName) ∧
      Comes (base ++ namesOf dir o.id.fileName) (s.documentBytes (o :: os)) t t' ∧
      Anchored t' s.layout base := by
  obtain ⟨hpath, hhas, hfile⟩ := writeDocument_eq_ok hwrite
  obtain ⟨dir, hdir, rfl⟩ := Option.map_eq_some_iff.1 hpath
  have hdocument := isDocumentDir_of_directory hdir
  have hxml := isXml_fileName o.id
  obtain ⟨t₀, ld, lp, -, hld, hlp, -, hcontent, hkeeps⟩ := writeFile_writes hfile
  have hwell : t'.WellFormed := by
    rw [← Action.after_of_ok hwrite]
    exact wellFormed_writeDocument h.well
  have hanchored : Anchored t' s.layout base := h.keeps hkeeps hwell
  have hlast := getLast?_objectPath hpath hlp
  have hne : ld ≠ lp := by
    rintro rfl
    exact not_isSettled_draft hld (isSettled_of_fileName hlast)
  have hread := (read_document hanchored hdocument hxml).1 (read_eq_ok.2 ⟨lp, hlp, hcontent hne⟩)
  have hplace : lp = base ++ namesOf dir o.id.fileName :=
    eq_of_locate_descend (isName_namesOf hdocument hxml) hanchored.root hlp
  subst hplace
  refine ⟨dir, hdir, rfl, hread.1, ⟨?_, hread.2, hkeeps.mono fun l hl => ⟨?_, hl.2⟩⟩, hanchored⟩
  · -- what stood there would have been found
    refine Option.eq_none_iff_forall_ne_some.2 fun b hb => ?_
    have hfound := (isFile_document h hdocument hxml).2 ⟨hread.1, b, hb⟩
    obtain ⟨l, hl, hnode⟩ : ∃ l, t.locate ((s.layout.documentDir dir).join o.id.fileName) = .ok l ∧
        t.node? l ≠ none := by
      unfold isFile at hfound
      split at hfound
      · next l b hfind =>
        obtain ⟨hl, hnode⟩ := find_eq_ok.1 hfind
        exact ⟨l, hl, by simp [hnode]⟩
      · cases hfound
    rw [has_of_locate hl hnode] at hhas
    cases hhas
  · rintro rfl
    exact not_isSettled_draft hld hl.1

theorem wellFormed_loftFiles : loftFiles.WellFormed :=
  .of_keys (by decide +kernel) (by decide)

theorem anchored_loftFiles : Anchored loftFiles loft.layout ["p"] where
  well := wellFormed_loftFiles
  root := by decide
  metadata := by decide

end Store

end AudioProject
