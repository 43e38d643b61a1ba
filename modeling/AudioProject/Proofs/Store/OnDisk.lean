import AudioProject.Proofs.Store.Documents

/-
  The objects on the disk. `OnDisk` says of an entry that some document which loading reads for its
  kind has an object with this entry. All of the index of a loaded store is on the disk
  (`exists_onDisk`, `exists_onDisk_at`), what is written comes back from the disk (`readDocument_written`), and it
  stays there as long as the contents of documents do (`OnDisk.keeps`).
-/

namespace AudioProject

open FileTree AudioProject.Path

/-! ## What a document keeps of a class -/

/-- The object as its document gives it back: a class is written by its name. -/
def Object.named (o : Object) : Object := { o with objectClass := .ofName o.objectClass.name }

theorem Object.named_eq {o : Object} (h : o.objectClass.isKnown = true) : o.named = o := by
  have hname : ObjectClass.ofName o.objectClass.name = o.objectClass := by
    cases hc : o.objectClass with
    | other name =>
      rw [hc] at h
      cases h
    | _ => rfl
  unfold named
  rw [hname]

theorem Document.objectText_named (o : Object) : objectText o.named = objectText o := by
  unfold objectText Object.named
  rw [ObjectClass.name_ofName]

theorem Document.hasNamedClasses_named (m : Model) (os : List Object) :
    (⟨m, os.map Object.named⟩ : Document).HasNamedClasses := by
  intro o ho
  obtain ⟨o', -, rfl⟩ := List.mem_map.1 ho
  exact ⟨o'.objectClass.name, rfl⟩

theorem IndexEntry.class_of_ofObject? {k : Kind} {o : Object} {e : IndexEntry}
    (h : ofObject? k o = some e) :
    masterClass? k = some o.objectClass ∨ k.accepts o.objectClass = true := by
  obtain ⟨p, hp, -⟩ := Option.map_eq_some_iff.1 h
  unfold position? at hp
  split at hp
  · next hmaster => exact Or.inl hmaster
  · split at hp
    · next haccepts => exact Or.inr haccepts
    · cases hp

/-- The classes that an index takes are all known by name. -/
theorem IndexEntry.named_of_ofObject? {k : Kind} {o : Object} {e : IndexEntry}
    (h : ofObject? k o = some e) : o.named = o := by
  refine Object.named_eq ?_
  have hclass := class_of_ofObject? h
  cases hc : o.objectClass with
  | other name =>
    rw [hc] at hclass
    rcases hclass with hmaster | haccepts
    · cases k <;> cases hmaster
    · cases of_decide_eq_true haccepts
  | _ => rfl

/-- An index takes what is in the directories of its kind. -/
theorem IndexEntry.directory_mem {k : Kind} {o : Object} {e : IndexEntry} {dir : String}
    (h : ofObject? k o = some e) (hdir : o.objectClass.directory? = some dir) :
    dir ∈ k.directories := by
  have hclass := class_of_ofObject? h
  generalize o.objectClass = c at hclass hdir
  rcases hclass with hmaster | haccepts
  · cases k <;> cases hmaster <;> cases hdir
  · have hkind : c.kind? = some k := of_decide_eq_true haccepts
    cases c <;> cases hkind <;> cases hdir <;> decide

namespace Store

variable {t t' : FileTree} {l : Layout} {base : Location} {k : Kind} {e : IndexEntry} {path : Path}
  {dir n : String}

theorem documentBytes_named (s : Store) (os : List Object) :
    s.documentBytes (os.map Object.named) = s.documentBytes os := by
  have htexts : Document.objectText ∘ Object.named = Document.objectText :=
    funext Document.objectText_named
  unfold documentBytes Document.print
  rw [List.map_map, htexts]

/-- What was written is read back, with the classes that the names give. -/
theorem readDocument_written {s : Store} {os : List Object}
    (h : t.read path = .ok (s.documentBytes os)) :
    readDocument t path = .ok ⟨s.model, os.map Object.named⟩ := by
  rw [← documentBytes_named] at h
  exact readDocument_of_read (Document.hasNamedClasses_named _ _) h

/-! ## Places of documents -/

/-- The documents that loading reads for a kind. -/
inductive IsPlace (l : Layout) : Kind → Path → Prop where
  | workspace {k : Kind} (hk : k ≠ .bus) : IsPlace l k l.workspace
  | master : IsPlace l .bus l.masterBus
  | document {k : Kind} {dir n : String} (hdir : dir ∈ k.directories) (hn : IsXml n) :
    IsPlace l k ((l.documentDir dir).join n)

theorem isXml_workspace : IsXml "Workspace.xml" where
  plain := ⟨by decide, by decide, by decide, by decide⟩
  ending := ⟨"Workspace", by decide, rfl⟩

theorem isXml_master : IsXml "Master.xml" where
  plain := ⟨by decide, by decide, by decide, by decide⟩
  ending := ⟨"Master", by decide, rfl⟩

theorem IsPlace.exists_join (h : IsPlace l k path) :
    ∃ (front : Path) (n : String), IsXml n ∧ path = front.join n := by
  cases h with
  | workspace _ => exact ⟨_, _, isXml_workspace, rfl⟩
  | master => exact ⟨_, _, isXml_master, rfl⟩
  | document _ hn => exact ⟨_, _, hn, rfl⟩

theorem isSettled_of_join {front : Path} {j : Location} (hn : IsXml n)
    (hj : t.locate (front.join n) = .ok j) : IsSettled j :=
  isSettled_of_isXml hn (getLast?_of_join hn.plain hj)

/-- The contents that a tree has at settled places. -/
def IsContent (t : FileTree) (j : Location) : Prop := IsSettled j ∧ t.contentAt? j ≠ none

theorem IsContent.keeps {j : Location} (h : IsContent t j) (hkeeps : Keeps (IsContent t) t t') :
    IsContent t' j := by
  refine ⟨h.1, ?_⟩
  rw [hkeeps.content j h]
  exact h.2

theorem Comes.keeps {place : Location} {b : ByteArray} (h : Comes place b t t') :
    Keeps (IsContent t) t t' := by
  refine h.others.mono fun j hj => ⟨hj.1, ?_⟩
  rintro rfl
  exact hj.2 h.absent

/-- A document is read as before if the contents are. -/
theorem readDocument_keeps {front : Path} {d : Document} (hn : IsXml n)
    (hkeeps : Keeps (IsContent t) t t') (h : readDocument t (front.join n) = .ok d) :
    readDocument t' (front.join n) = .ok d := by
  refine readDocument_of_reads (fun b hb => ?_) h
  obtain ⟨j, hj, hcontent⟩ := read_eq_ok.1 hb
  exact hkeeps.read hj ⟨isSettled_of_join hn hj, by simp [hcontent]⟩ hb

/-! ## Entries on the disk -/

/-- A document of the kind has an object with this entry. -/
def OnDisk (t : FileTree) (l : Layout) (k : Kind) (e : IndexEntry) : Prop :=
  ∃ path d o, IsPlace l k path ∧ readDocument t path = .ok d ∧ o ∈ d.objects ∧
    IndexEntry.ofObject? k o = some e

theorem OnDisk.keeps (h : OnDisk t l k e) (hkeeps : Keeps (IsContent t) t t') :
    OnDisk t' l k e := by
  obtain ⟨path, d, o, hplace, hd, ho, he⟩ := h
  obtain ⟨front, n, hn, rfl⟩ := hplace.exists_join
  exact ⟨_, d, o, hplace, readDocument_keeps hn hkeeps hd, ho, he⟩

/-- The documents in a directory are at the paths of their names. -/
theorem exists_name_of_documentsIn (h : Anchored t l base) (hdir : IsDocumentDir dir)
    {ds : List (Path × Document)} (hds : documentsIn t (l.documentDir dir) = .ok ds)
    {d : Path × Document} (hd : d ∈ ds) :
    ∃ n, IsXml n ∧ d.1 = (l.documentDir dir).join n ∧ readDocument t d.1 = .ok d.2 := by
  obtain ⟨-, -, hall⟩ := (documentsIn_eq_ok_iff h hdir).1 hds
  obtain ⟨i, hi, rfl⟩ := List.mem_iff_getElem.1 hd
  obtain ⟨hlength, hget⟩ := List.forall₂_iff_get.1 hall
  have hin : (fileNames t l base dir)[i] ∈ fileNames t l base dir := List.getElem_mem _
  obtain ⟨hpath, hread⟩ := hget i (hlength ▸ hi) hi
  exact ⟨_, ((mem_fileNames h hdir).1 hin).1, hpath, hread⟩

/-- All that loading makes an index from is on the disk. -/
theorem onDisk_of_mem (h : Anchored t l base) {c : Contents} (hholds : Holds t l c) {o : Object}
    (ho : o ∈ c.objects k) (he : IndexEntry.ofObject? k o = some e) : OnDisk t l k e := by
  rcases List.mem_append.1 ho with hfirst | hrest
  · by_cases hk : k = .bus
    · subst hk
      exact ⟨_, _, o, .master, readRequired_eq_ok.1 hholds.master, hfirst, he⟩
    · have hsame : c.first k = c.workspace := by
        cases k with
        | bus => exact absurd rfl hk
        | _ => rfl
      rw [hsame] at hfirst
      exact ⟨_, _, o, .workspace hk, readRequired_eq_ok.1 hholds.workspace, hfirst, he⟩
  · obtain ⟨d, hd, ho⟩ := List.mem_flatMap.1 hrest
    obtain ⟨dir, hdir, hd⟩ := List.mem_flatMap.1 hd
    obtain ⟨n, hn, hpath, hread⟩ := exists_name_of_documentsIn h (isDocumentDir_of_mem hdir)
      (hholds.documents k dir hdir) hd
    rw [hpath] at hread
    exact ⟨_, _, o, .document hdir hn, hread, ho, he⟩

/-- Every id of the index has its object on the disk. -/
theorem exists_onDisk (h : Anchored t l base) {c : Contents} (hholds : Holds t l c) {s : Store}
    (hpresents : Presents c s) {id : ObjectId} (hid : s.contains k id = true) :
    ∃ e, e.id = id ∧ OnDisk t l k e := by
  have hindex : (c.index k).contains id = true := by rwa [← hpresents.index]
  rcases KindIndex.contains_insertObjects.1 hindex with hnone | ⟨o, ho, e, he, hid⟩
  · cases hnone
  · exact ⟨e, hid, onDisk_of_mem h hholds ho he⟩

/-- Every path of an asset folder has an object on the disk that names it. -/
theorem exists_onDisk_at (h : Anchored t l base) {c : Contents} (hholds : Holds t l c) {s : Store}
    (hpresents : Presents c s) {p : AssetPath}
    (hp : ((s.index .assetFolder).paths.get? p).isSome = true) :
    ∃ e, e.assetPath? = some p ∧ s.contains .assetFolder e.id = true ∧ OnDisk t l .assetFolder e := by
  rw [hpresents.index] at hp
  rcases KindIndex.paths_insertObjects.1 hp with hnone | ⟨o, ho, e, he, hpath⟩
  · cases hnone
  · have hin : (c.index .assetFolder).contains e.id = true :=
      KindIndex.contains_insertObjects.2 (Or.inr ⟨o, ho, e, he, rfl⟩)
    refine ⟨e, hpath, ?_, onDisk_of_mem h hholds ho he⟩
    unfold Store.contains
    rw [hpresents.index]
    exact hin

/-- A project that can be read is somewhere. -/
theorem exists_anchored (hwell : t.WellFormed) {c : Contents} (hholds : Holds t l c) :
    ∃ base, Anchored t l base := by
  obtain ⟨b, s, hread, -, -⟩ := readDocument_eq_ok.1 (readRequired_eq_ok.1 hholds.workspace)
  obtain ⟨j, hj, -⟩ := read_eq_ok.1 hread
  obtain ⟨metadata, hmetadata, hdirectory, -, -⟩ :=
    (walk_join isXml_workspace.plain).1 (locate_eq_ok.1 hj).2
  obtain ⟨base, hbase, -, -, rfl⟩ := (walk_join isName_metadataName).1 hmetadata
  exact ⟨base, hwell, hbase, hdirectory⟩

end Store

end AudioProject
