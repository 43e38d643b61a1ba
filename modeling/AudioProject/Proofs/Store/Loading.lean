import AudioProject.Host
import AudioProject.Proofs.KindIndex
import AudioProject.Proofs.Store.Places
import Mathlib.Data.List.Forall2

/-
  A project is what its documents say. `Contents` are the documents that are read; a tree of files
  holds them (`Holds`), and a store presents them (`Presents`). Loading succeeds exactly if a store
  can present what the files hold (`load_eq_ok_iff`), so what is known of a loaded store follows
  from the objects of the documents alone.
-/

namespace AudioProject

/-- A list of checks passes if each of them does. -/
theorem mapM_eq_ok_iff {ε α β : Type} {f : α → Except ε β} {xs : List α} {ys : List β} :
    xs.mapM f = .ok ys ↔ List.Forall₂ (fun x y => f x = .ok y) xs ys := by
  induction xs generalizing ys with
  | nil =>
    rw [List.mapM_nil, List.forall₂_nil_left_iff]
    constructor
    · intro h
      cases h
      rfl
    · intro h
      rw [h]
      rfl
  | cons x xs ih =>
    rw [List.mapM_cons, bind_eq_ok]
    constructor
    · intro h
      obtain ⟨y, hy, h⟩ := h
      obtain ⟨zs, hzs, h⟩ := bind_eq_ok.1 h
      cases h
      exact .cons hy (ih.1 hzs)
    · intro h
      cases h with
      | cons hy hzs => exact ⟨_, hy, bind_eq_ok.2 ⟨_, ih.2 hzs, rfl⟩⟩

theorem exists_of_mapM_eq_ok {ε α β : Type} {f : α → Except ε β} {xs : List α} {ys : List β}
    (h : xs.mapM f = .ok ys) {x : α} (hx : x ∈ xs) : ∃ y ∈ ys, f x = .ok y := by
  have hall := mapM_eq_ok_iff.1 h
  clear h
  induction hall with
  | nil => cases hx
  | cons hy _ ih =>
    rcases List.mem_cons.1 hx with rfl | hx
    · exact ⟨_, List.mem_cons_self, hy⟩
    · obtain ⟨y, hmem, hy⟩ := ih hx
      exact ⟨y, List.mem_cons_of_mem _ hmem, hy⟩

namespace Store

/-! ## What a project is read from -/

structure Contents where
  workspace : Document
  /-- The document of the master bus. -/
  master : Document
  /-- The documents in a directory below the metadata, by file name. -/
  documents : String → List (Path × Document)

namespace Contents

/-- The document that is read before the directories of a kind. -/
def first (c : Contents) : Kind → Document
  | .bus => c.master
  | _ => c.workspace

/-- The objects that an index is made from, in the order in which they are put in. -/
def objects (c : Contents) (k : Kind) : List Object :=
  (c.first k).objects ++ (k.directories.flatMap c.documents).flatMap fun d => d.2.objects

def index (c : Contents) (k : Kind) : KindIndex := (KindIndex.empty k).insertObjects (c.objects k)

def indices (c : Contents) : ByKind KindIndex :=
  ⟨c.index .eventFolder, c.index .assetFolder, c.index .bank, c.index .bus⟩

theorem get_indices (c : Contents) (k : Kind) : c.indices.get k = c.index k := by
  cases k <;> rfl

end Contents

/-- The files of a project hold these documents. -/
structure Holds (t : FileTree) (l : Layout) (c : Contents) : Prop where
  workspace : readRequired t l.workspace = .ok c.workspace
  master : readRequired t l.masterBus = .ok c.master
  documents : ∀ k : Kind, ∀ dir ∈ k.directories,
    documentsIn t (l.documentDir dir) = .ok (c.documents dir)

/-- A store has what these documents say. -/
structure Presents (c : Contents) (s : Store) : Prop where
  model : s.model = c.workspace.model
  masters : mastersOf c.workspace = .ok s.masters
  indices : s.indices = c.indices
  masterBus : masterBusOf (c.index .bus) = .ok s.masterBus
  eventFolder : checkMaster c.indices "master event folder" s.masters.eventFolder = .ok ()
  bankFolder : checkMaster c.indices "master bank folder" s.masters.bankFolder = .ok ()
  assetFolder : checkMaster c.indices "master asset folder" s.masters.assetFolder = .ok ()

theorem Presents.index {c : Contents} {s : Store} (h : Presents c s) (k : Kind) :
    s.index k = c.index k := by
  unfold Store.index
  rw [h.indices, c.get_indices]

/-- Directories that can be read make an index of all their objects. -/
theorem indexKind_eq_ok {t : FileTree} {l : Layout} {c : Contents} {k : Kind}
    (h : ∀ dir ∈ k.directories, documentsIn t (l.documentDir dir) = .ok (c.documents dir)) :
    indexKind t l (c.first k) k = .ok (c.index k) := by
  have hfound : k.directories.mapM (fun dir => documentsIn t (l.documentDir dir)) =
      .ok (k.directories.map c.documents) := by
    rw [mapM_eq_ok_iff, List.forall₂_map_right_iff]
    exact List.forall₂_same.2 h
  unfold indexKind
  rw [hfound]
  rfl

/-- An index shows that each directory of its kind could be read. -/
theorem documentsIn_of_indexKind {t : FileTree} {l : Layout} {first : Document} {k : Kind}
    {x : KindIndex} (h : indexKind t l first k = .ok x) {dir : String} (hdir : dir ∈ k.directories) :
    ∃ ds, documentsIn t (l.documentDir dir) = .ok ds := by
  unfold indexKind at h
  obtain ⟨found, hfound, -⟩ := bind_eq_ok.1 h
  obtain ⟨ds, -, hds⟩ := exists_of_mapM_eq_ok hfound hdir
  exact ⟨ds, hds⟩

/-! ## Loading -/

theorem load_eq_ok_of_holds {t : FileTree} {c : Contents} {s : Store} (hholds : Holds t s.layout c)
    (hpresents : Presents c s) : load t s.layout s.keepJournals = .ok s := by
  have hindex : ∀ k, indexKind t s.layout (c.first k) k = .ok (c.index k) :=
    fun k => indexKind_eq_ok (hholds.documents k)
  have hevent : indexKind t s.layout c.workspace .eventFolder = .ok c.indices.eventFolder :=
    hindex .eventFolder
  have hasset : indexKind t s.layout c.workspace .assetFolder = .ok c.indices.assetFolder :=
    hindex .assetFolder
  have hbank : indexKind t s.layout c.workspace .bank = .ok c.indices.bank := hindex .bank
  have hbus : indexKind t s.layout c.master .bus = .ok c.indices.bus := hindex .bus
  unfold load
  simp only [hholds.workspace, hpresents.masters, hholds.master, hevent, hasset, hbank, hbus,
    ok_bind]
  have hmaster : masterBusOf c.indices.bus = .ok s.masterBus := hpresents.masterBus
  rw [hmaster, ok_bind, hpresents.eventFolder, ok_bind, hpresents.bankFolder, ok_bind,
    hpresents.assetFolder, ok_bind, ← hpresents.model]
  show Except.ok _ = Except.ok s
  have hindices : c.indices = s.indices := hpresents.indices.symm
  rw [hindices]

theorem holds_of_load {t : FileTree} {l : Layout} {keep : Bool} {s : Store}
    (h : load t l keep = .ok s) :
    s.layout = l ∧ s.keepJournals = keep ∧ ∃ c, Holds t l c ∧ Presents c s := by
  unfold load at h
  obtain ⟨workspace, hworkspace, h⟩ := bind_eq_ok.1 h
  obtain ⟨masters, hmasters, h⟩ := bind_eq_ok.1 h
  obtain ⟨master, hmaster, h⟩ := bind_eq_ok.1 h
  obtain ⟨events, hevents, h⟩ := bind_eq_ok.1 h
  obtain ⟨assets, hassets, h⟩ := bind_eq_ok.1 h
  obtain ⟨banks, hbanks, h⟩ := bind_eq_ok.1 h
  obtain ⟨buses, hbuses, h⟩ := bind_eq_ok.1 h
  obtain ⟨masterBus, hmasterBus, h⟩ := bind_eq_ok.1 h
  obtain ⟨⟨⟩, hevent, h⟩ := bind_eq_ok.1 h
  obtain ⟨⟨⟩, hbank, h⟩ := bind_eq_ok.1 h
  obtain ⟨⟨⟩, hasset, h⟩ := bind_eq_ok.1 h
  cases h
  let c : Contents := ⟨workspace, master, fun dir =>
    match documentsIn t (l.documentDir dir) with
    | .ok ds => ds
    | .error _ => []⟩
  have hdocuments : ∀ k : Kind, ∀ dir ∈ k.directories,
      documentsIn t (l.documentDir dir) = .ok (c.documents dir) := by
    intro k dir hdir
    obtain ⟨ds, hds⟩ : ∃ ds, documentsIn t (l.documentDir dir) = .ok ds := by
      cases k with
      | eventFolder => exact documentsIn_of_indexKind hevents hdir
      | assetFolder => exact documentsIn_of_indexKind hassets hdir
      | bank => exact documentsIn_of_indexKind hbanks hdir
      | bus => exact documentsIn_of_indexKind hbuses hdir
    show _ = Except.ok (match documentsIn t (l.documentDir dir) with
      | .ok ds => ds
      | .error _ => [])
    rw [hds]
  have hindex := fun k => indexKind_eq_ok (c := c) (hdocuments k)
  obtain rfl : events = c.index .eventFolder :=
    Except.ok.inj (hevents.symm.trans (hindex .eventFolder))
  obtain rfl : assets = c.index .assetFolder :=
    Except.ok.inj (hassets.symm.trans (hindex .assetFolder))
  obtain rfl : banks = c.index .bank := Except.ok.inj (hbanks.symm.trans (hindex .bank))
  obtain rfl : buses = c.index .bus := Except.ok.inj (hbuses.symm.trans (hindex .bus))
  exact ⟨rfl, rfl, c, ⟨hworkspace, hmaster, hdocuments⟩,
    ⟨rfl, hmasters, rfl, hmasterBus, hevent, hbank, hasset⟩⟩

/-- Loading succeeds exactly if the files hold documents that a store can present. -/
theorem load_eq_ok_iff {t : FileTree} {l : Layout} {keep : Bool} {s : Store} :
    load t l keep = .ok s ↔
      s.layout = l ∧ s.keepJournals = keep ∧ ∃ c, Holds t l c ∧ Presents c s := by
  constructor
  · exact holds_of_load
  · rintro ⟨rfl, rfl, c, hholds, hpresents⟩
    exact load_eq_ok_of_holds hholds hpresents

/-! ## Trees -/

/-- The parent of an object in the tree of its kind. -/
def parent? (s : Store) (k : Kind) (id : ObjectId) : Option ObjectId := (s.index k).tree.parent? id

theorem index_insert (s : Store) (k j : Kind) (e : IndexEntry) :
    (s.insert k e).index j = if k = j then (s.index j).insert e else s.index j := by
  unfold index insert
  rw [ByKind.get_set]
  by_cases hj : k = j
  · subst hj
    rfl
  · rw [if_neg hj, if_neg hj]

/-- The trees of a store agree with its entries. -/
def IsSound (s : Store) : Prop := ∀ k, (s.index k).IsSound

theorem IsSound.insert {s : Store} (h : s.IsSound) (k : Kind) (e : IndexEntry) :
    (s.insert k e).IsSound := by
  intro j
  rw [index_insert]
  split
  · exact (h j).insert e
  · exact h j

theorem Presents.isSound {c : Contents} {s : Store} (h : Presents c s) : s.IsSound := by
  intro k
  rw [h.index]
  exact (KindIndex.IsSound.empty k).insertObjects _

theorem isSound_of_load {t : FileTree} {l : Layout} {keep : Bool} {s : Store}
    (h : load t l keep = .ok s) : s.IsSound := by
  obtain ⟨-, -, c, -, hpresents⟩ := load_eq_ok_iff.1 h
  exact hpresents.isSound

theorem mem_ancestors_iff {s : Store} {k : Kind} {id a : ObjectId} :
    a ∈ s.ancestors k id ↔ (s.index k).tree.Below id a :=
  Hierarchy.mem_ancestors_iff

/-! ## Files with known contents -/

theorem readDocument_of_contentAt? {t : FileTree} {s : Store} {path : Path} {l : Location}
    {os : List Object}
    (hclasses : ∀ o ∈ os, ObjectClass.ofName o.objectClass.name = o.objectClass)
    (hl : t.locate path = .ok l) (hcontent : t.contentAt? l = some (s.documentBytes os)) :
    readDocument t path = .ok ⟨s.model, os⟩ :=
  readDocument_of_read (fun o ho => ⟨o.objectClass.name, (hclasses o ho).symm⟩)
    (FileTree.read_eq_ok.2 ⟨l, hl, hcontent⟩)

theorem readRequired_of_has {t : FileTree} {path : Path} {d : Document} (hhas : t.has path = true)
    (hread : readDocument t path = .ok d) : readRequired t path = .ok d := by
  unfold readRequired
  rw [if_pos hhas, hread]

theorem documentsIn_of_missing {t : FileTree} {dir : Path} (h : t.list dir = .error .notFound) :
    documentsIn t dir = .ok [] := by
  unfold documentsIn
  rw [h]

theorem documentsIn_of_single {t : FileTree} {dir path : Path} {n : String} {d : Document}
    (hlist : t.list dir = .ok [n]) (hpath : dir.join n = path) (hfile : t.isFile path = true)
    (hending : path.extension? = some "xml") (hread : readDocument t path = .ok d) :
    documentsIn t dir = .ok [(path, d)] := by
  unfold documentsIn
  rw [hlist]
  dsimp only
  rw [List.mergeSort_singleton, List.map_singleton, hpath,
    List.filter_cons_of_pos (by simp [hfile, hending]), List.filter_nil, List.mapM_cons, hread]
  rfl

/-! ## A project with its masters, an event, and a folder whose parent is missing -/

/-- The id of a folder that is not there. -/
def missing : ObjectId := ⟨"gone", by decide⟩

/-- An event folder below the one that is not there. -/
def lost : Object :=
  ({ id := ⟨"lost", by decide⟩, objectClass := .eventFolder } : Object).setEdge "folder" [missing]

/-- The event, which no index has. -/
def toll : Object := { id := ⟨"toll", by decide⟩, objectClass := .event }

def loftWorkspace : Object :=
  ((({ id := ⟨"loft", by decide⟩, objectClass := .workspace } : Object).setEdge
    "masterEventFolder" [⟨"cues", by decide⟩]).setEdge
    "masterBankFolder" [⟨"decks", by decide⟩]).setEdge
    "masterAssetFolder" [⟨"tapes", by decide⟩]

def loftContents : Contents where
  workspace := ⟨⟨"Studio.02.02.10", by decide⟩, [loftWorkspace,
    { id := ⟨"cues", by decide⟩, objectClass := .masterEventFolder },
    { id := ⟨"decks", by decide⟩, objectClass := .masterBankFolder },
    { id := ⟨"tapes", by decide⟩, objectClass := .masterAssetFolder }]⟩
  master := ⟨⟨"Studio.02.02.10", by decide⟩,
    [{ id := ⟨"mixer", by decide⟩, objectClass := .mixerMaster }]⟩
  documents := fun dir =>
    if dir = "EventFolder" then
      [(⟨"/p/Metadata/EventFolder/lost.xml"⟩, ⟨⟨"Studio.02.02.10", by decide⟩, [lost]⟩)]
    else []

def loft : Store where
  layout := { root := ⟨"/p"⟩ }
  model := loftContents.workspace.model
  masters := ⟨⟨"loft", by decide⟩, ⟨"cues", by decide⟩, ⟨"decks", by decide⟩,
    ⟨"tapes", by decide⟩⟩
  masterBus := ⟨"mixer", by decide⟩
  indices := loftContents.indices
  keepJournals := true

def loftFiles : FileTree where
  nodes := ⟨[(["p"], .directory), (["p", "Metadata"], .directory),
    (["p", "Metadata", "Workspace.xml"], .file (loft.documentBytes loftContents.workspace.objects)),
    (["p", "Metadata", "Master.xml"], .file (loft.documentBytes loftContents.master.objects)),
    (["p", "Metadata", "EventFolder"], .directory),
    (["p", "Metadata", "EventFolder", "lost.xml"], .file (loft.documentBytes [lost])),
    (["p", "Metadata", "Event"], .directory),
    (["p", "Metadata", "Event", "toll.xml"], .file (loft.documentBytes [toll]))], by decide⟩

def loftHost : Host where
  files := loftFiles
  ids := .ofStart 0
  operationName := fun _ => "op"
  now := ⟨0, 0⟩

theorem readDocument_lost : readDocument loftFiles ⟨"/p/Metadata/EventFolder/lost.xml"⟩ =
    .ok ⟨loft.model, [lost]⟩ :=
  readDocument_of_contentAt? (by decide)
    (l := ["p", "Metadata", "EventFolder", "lost.xml"]) (by decide) rfl

theorem holds_loftFiles : Holds loftFiles loft.layout loftContents where
  workspace := readRequired_of_has (by decide) (readDocument_of_contentAt? (s := loft)
    (by decide) (l := ["p", "Metadata", "Workspace.xml"]) (by decide) rfl)
  master := readRequired_of_has (by decide) (readDocument_of_contentAt? (s := loft)
    (by decide) (l := ["p", "Metadata", "Master.xml"]) (by decide) rfl)
  documents := by
    intro k dir hdir
    by_cases hfolder : dir = "EventFolder"
    · subst hfolder
      exact documentsIn_of_single (n := "lost.xml") (by decide) (by decide)
        (by decide) (by decide) readDocument_lost
    · have hmissing : ∀ dir ∈ ["Asset", "BankFolder", "Bank", "Group"],
          loftFiles.list (loft.layout.documentDir dir) = .error .notFound := by decide +kernel
      have hothers : ∀ dir ∈ k.directories, dir ≠ "EventFolder" →
          dir ∈ ["Asset", "BankFolder", "Bank", "Group"] := by cases k <;> decide
      rw [documentsIn_of_missing (hmissing dir (hothers dir hdir hfolder))]
      exact congrArg Except.ok (if_neg hfolder).symm

theorem presents_loft : Presents loftContents loft where
  model := rfl
  masters := rfl
  indices := rfl
  masterBus := by decide
  eventFolder := by decide +kernel
  bankFolder := by decide
  assetFolder := by decide

theorem load_loftFiles : load loftFiles loft.layout loft.keepJournals = .ok loft :=
  load_eq_ok_of_holds holds_loftFiles presents_loft

end Store

end AudioProject
