import AudioProject.Proofs.Store.Reopening

/-
  The roots of a project that is opened. Where the files can be read, opening comes down to its
  checks (`load_of_holds`): the workspace points to its masters, one bus is the root, and each of
  the three folders is in some index of folders. So the root of the buses is a bus, and the only
  one without output; but the root of a kind of folders may be a folder of another kind, and it is
  of its own exactly if the documents of its kind define it (`roots_of_load`).
-/

namespace AudioProject

/-- A bus is a root if it has no output. -/
theorem IndexEntry.isRoot_bus {o : Object} {e : IndexEntry} (he : ofObject? .bus o = some e) :
    e.isRoot = true ↔ o.singleEdge? "output" = none := by
  obtain ⟨position, hposition, rfl⟩ := Option.map_eq_some_iff.1 he
  unfold position? at hposition
  rw [if_neg (by simp [masterClass?])] at hposition
  split at hposition
  · cases houtput : o.singleEdge? "output" <;> simp only [Kind.parentEdge?, houtput] at hposition <;>
      cases hposition <;> simp [isRoot]
  · cases hposition

/-- The folders that a workspace points to, by what they are called where one is missing. -/
def Masters.pointers (m : Masters) : List (String × ObjectId) :=
  [("master event folder", m.eventFolder), ("master bank folder", m.bankFolder),
    ("master asset folder", m.assetFolder)]

namespace Store

variable {t : FileTree} {l : Layout} {c : Contents} {keep : Bool} {s : Store} {m : Masters}

/-! ## What the documents define -/

/-- An object of the kind in the documents that are read for it has this id. -/
def Contents.Defines (c : Contents) (k : Kind) (id : ObjectId) : Prop :=
  ∃ o ∈ c.objects k, o.id = id ∧ (IndexEntry.ofObject? k o).isSome = true

theorem Contents.contains_index_iff {k : Kind} {id : ObjectId} :
    (c.index k).contains id = true ↔ c.Defines k id := by
  unfold Contents.index
  rw [KindIndex.contains_insertObjects]
  constructor
  · rintro (hnone | ⟨o, ho, e, he, rfl⟩)
    · cases hnone
    · exact ⟨o, ho, (IndexEntry.id_ofObject? he).symm, Option.isSome_iff_exists.2 ⟨e, he⟩⟩
  · rintro ⟨o, ho, rfl, hsome⟩
    obtain ⟨e, he⟩ := Option.isSome_iff_exists.1 hsome
    exact Or.inr ⟨o, ho, e, he, IndexEntry.id_ofObject? he⟩

/-- The documents define a folder of some kind with this id. -/
def Contents.DefinesFolder (c : Contents) (id : ObjectId) : Prop := ∃ k, k ≠ .bus ∧ c.Defines k id

theorem Contents.checkMaster_eq_ok_iff {what : String} {id : ObjectId} :
    checkMaster c.indices what id = .ok () ↔ c.DefinesFolder id := by
  rw [checkMaster_eq_ok]
  constructor
  · rintro (h | h | h)
    · exact ⟨.eventFolder, by decide, contains_index_iff.1 h⟩
    · exact ⟨.bank, by decide, contains_index_iff.1 h⟩
    · exact ⟨.assetFolder, by decide, contains_index_iff.1 h⟩
  · rintro ⟨k, hk, hdefines⟩
    have hin := contains_index_iff.2 hdefines
    cases k with
    | eventFolder => exact Or.inl hin
    | bank => exact Or.inr (Or.inl hin)
    | assetFolder => exact Or.inr (Or.inr hin)
    | bus => exact absurd rfl hk

theorem Contents.checkMaster_of_not {what : String} {id : ObjectId} (h : ¬ c.DefinesFolder id) :
    checkMaster c.indices what id = .error (.invalid (.undefinedMaster what id)) := by
  have hcheck : checkMaster c.indices what id ≠ .ok () := fun hok => h (checkMaster_eq_ok_iff.1 hok)
  unfold checkMaster at hcheck ⊢
  split
  · next hin => exact absurd (if_pos hin) hcheck
  · rfl

/-! ## Opening where the files can be read -/

/-- What is left to check once the documents are read. -/
theorem load_of_holds (h : Holds t l c) (keep : Bool) : load t l keep = do
    let masters ← mastersOf c.workspace
    let bus ← masterBusOf (c.index .bus)
    masters.pointers.forM fun p => checkMaster c.indices p.1 p.2
    return ⟨l, c.workspace.model, masters, bus, c.indices, keep⟩ := by
  have hindex : ∀ k, indexKind t l (c.first k) k = .ok (c.index k) :=
    fun k => indexKind_eq_ok (h.documents k)
  have hevent : indexKind t l c.workspace .eventFolder = .ok c.indices.eventFolder :=
    hindex .eventFolder
  have hasset : indexKind t l c.workspace .assetFolder = .ok c.indices.assetFolder :=
    hindex .assetFolder
  have hbank : indexKind t l c.workspace .bank = .ok c.indices.bank := hindex .bank
  have hbus : indexKind t l c.master .bus = .ok c.indices.bus := hindex .bus
  unfold load Masters.pointers
  simp only [h.workspace, h.master, hevent, hasset, hbank, hbus, ok_bind,
    List.forM_eq_forM, List.forM_cons, List.forM_nil, bind_assoc, pure_bind]
  rfl

/-- The folders are checked in a row, and the first that is missing is named. -/
theorem forM_checkMaster (c : Contents) (ps : List (String × ObjectId)) :
    ((ps.forM fun p => checkMaster c.indices p.1 p.2) = .ok () ∧
      ∀ p ∈ ps, c.DefinesFolder p.2) ∨
    ∃ p ∈ ps, ¬ c.DefinesFolder p.2 ∧
      (ps.forM fun p => checkMaster c.indices p.1 p.2) =
        .error (.invalid (.undefinedMaster p.1 p.2)) := by
  rw [List.forM_eq_forM]
  induction ps with
  | nil => exact Or.inl ⟨rfl, by simp⟩
  | cons p ps ih =>
    rw [List.forM_cons]
    by_cases hp : c.DefinesFolder p.2
    · rw [Contents.checkMaster_eq_ok_iff.2 hp, ok_bind]
      rcases ih with ⟨hok, hall⟩ | ⟨q, hq, hnot, herror⟩
      · exact Or.inl ⟨hok, List.forall_mem_cons.2 ⟨hp, hall⟩⟩
      · exact Or.inr ⟨q, List.mem_cons_of_mem _ hq, hnot, herror⟩
    · rw [Contents.checkMaster_of_not hp]
      exact Or.inr ⟨p, List.mem_cons_self, hp, rfl⟩

/-- Once the documents name the masters and one bus is the root, the folders decide. -/
theorem load_decides (h : Holds t l c) (hmasters : mastersOf c.workspace = .ok m) {bus : ObjectId}
    (hbus : masterBusOf (c.index .bus) = .ok bus) (keep : Bool) :
    (load t l keep = .ok ⟨l, c.workspace.model, m, bus, c.indices, keep⟩ ∧
      ∀ p ∈ m.pointers, c.DefinesFolder p.2) ∨
    ∃ p ∈ m.pointers, ¬ c.DefinesFolder p.2 ∧
      load t l keep = .error (.invalid (.undefinedMaster p.1 p.2)) := by
  rw [load_of_holds h keep, hmasters, ok_bind, hbus, ok_bind]
  rcases forM_checkMaster c m.pointers with ⟨hok, hall⟩ | ⟨p, hp, hnot, herror⟩
  · rw [hok]
    exact Or.inl ⟨rfl, hall⟩
  · rw [herror]
    exact Or.inr ⟨p, hp, hnot, rfl⟩

/-! ## Roots -/

theorem root_mem_pointers (s : Store) {k : Kind} (hk : k ≠ .bus) :
    ∃ what, (what, s.root k) ∈ s.masters.pointers := by
  cases k with
  | eventFolder => exact ⟨"master event folder", by simp [Masters.pointers, root]⟩
  | bank => exact ⟨"master bank folder", by simp [Masters.pointers, root]⟩
  | assetFolder => exact ⟨"master asset folder", by simp [Masters.pointers, root]⟩
  | bus => exact absurd rfl hk

/-- What the store of some documents has at the top of each kind. -/
structure RootsOf (c : Contents) (s : Store) : Prop where
  /-- The root of the buses is a bus. -/
  bus : s.contains .bus (s.root .bus) = true
  /-- It is the only bus without output. -/
  output : ∀ id e, s.lookup? .bus id = some e →
    ∃ o ∈ c.objects .bus, IndexEntry.ofObject? .bus o = some e ∧
      (o.singleEdge? "output" = none ↔ id = s.root .bus)
  /-- The root of folders is a folder, of whichever kind. -/
  folder : ∀ k, k ≠ .bus → ∃ j, j ≠ .bus ∧ s.contains j (s.root k) = true
  /-- It is of its own kind exactly if the documents of that kind define it. -/
  own : ∀ k, s.contains k (s.root k) = true ↔ c.Defines k (s.root k)

theorem Presents.contains_iff (h : Presents c s) {k : Kind} {id : ObjectId} :
    s.contains k id = true ↔ c.Defines k id := by
  unfold Store.contains
  rw [h.index]
  exact Contents.contains_index_iff

theorem Presents.definesFolder (h : Presents c s) :
    ∀ p ∈ s.masters.pointers, c.DefinesFolder p.2 := by
  simp only [Masters.pointers, List.forall_mem_cons]
  refine ⟨?_, ?_, ?_, by simp⟩
  · exact Contents.checkMaster_eq_ok_iff.1 h.eventFolder
  · exact Contents.checkMaster_eq_ok_iff.1 h.bankFolder
  · exact Contents.checkMaster_eq_ok_iff.1 h.assetFolder

theorem Presents.rootsOf (h : Presents c s) : RootsOf c s := by
  obtain ⟨hbus, hroot⟩ := KindIndex.ids_roots_eq_singleton.1 (masterBusOf_eq_ok.1 h.masterBus)
  have hin : s.contains .bus (s.root .bus) = true := h.contains_iff.2
    (Contents.contains_index_iff.1 hbus)
  refine ⟨hin, fun id e he => ?_, fun k hk => ?_, fun k => h.contains_iff⟩
  · have hentry : (c.index .bus).get? id = some e := by
      rw [← h.index]
      exact he
    have hid : e.id = id := (c.index .bus).keyed id e hentry
    subst hid
    rcases KindIndex.exists_of_get?_insertObjects hentry with hnone | ⟨o, ho, heo⟩
    · cases hnone
    · exact ⟨o, ho, heo, (IndexEntry.isRoot_bus heo).symm.trans (hroot e hentry)⟩
  · obtain ⟨what, hmem⟩ := root_mem_pointers s hk
    obtain ⟨j, hj, hdefines⟩ := h.definesFolder _ hmem
    exact ⟨j, hj, h.contains_iff.2 hdefines⟩

/-- Every project that opens has a bus at the top of its buses, the only one without output, and a
folder at the top of each kind of folders, which is of that kind exactly if the documents of the
kind define it. Of projects whose documents name the masters and have one root bus, those open whose
masters are defined as folders; of others a master that is not is named. -/
theorem roots_of_load (t : FileTree) (l : Layout) (keep : Bool) :
    (∀ s, load t l keep = .ok s → ∃ c, Holds t l c ∧ RootsOf c s) ∧
    ∀ c m bus, Holds t l c → mastersOf c.workspace = .ok m →
      masterBusOf (c.index .bus) = .ok bus →
      (load t l keep = .ok ⟨l, c.workspace.model, m, bus, c.indices, keep⟩ ∧
        ∀ p ∈ m.pointers, c.DefinesFolder p.2) ∨
      ∃ p ∈ m.pointers, ¬ c.DefinesFolder p.2 ∧
        load t l keep = .error (.invalid (.undefinedMaster p.1 p.2)) := by
  constructor
  · intro s hload
    obtain ⟨-, -, c, hholds, hpresents⟩ := load_eq_ok_iff.1 hload
    exact ⟨c, hholds, hpresents.rootsOf⟩
  · exact fun c m bus hholds hmasters hbus => load_decides hholds hmasters hbus keep

theorem roots_of_load_loft :
    (∃ c, Holds loftFiles loft.layout c ∧ RootsOf c loft) ∧
    ∀ p ∈ loft.masters.pointers, loftContents.DefinesFolder p.2 := by
  obtain ⟨hopened, hdecided⟩ := roots_of_load loftFiles loft.layout loft.keepJournals
  refine ⟨hopened loft load_loftFiles, ?_⟩
  rcases hdecided loftContents loft.masters loft.masterBus holds_loftFiles rfl (by decide +kernel)
    with ⟨-, hall⟩ | ⟨p, -, -, herror⟩
  · exact hall
  · rw [load_loftFiles] at herror
    cases herror

/-! ### A workspace whose event folders are below its banks -/

def crossedContents : Contents where
  workspace := ⟨loftContents.workspace.model,
    [loftWorkspace.setEdge "masterEventFolder" [loft.masters.bankFolder],
      { id := loft.masters.bankFolder, objectClass := .masterBankFolder },
      { id := loft.masters.assetFolder, objectClass := .masterAssetFolder }]⟩
  master := loftContents.master
  documents := fun _ => []

def crossed : Store :=
  { loft with
    masters := { loft.masters with eventFolder := loft.masters.bankFolder }
    indices := crossedContents.indices }

def crossedFiles : FileTree where
  nodes := ⟨[(["p"], .directory), (["p", "Metadata"], .directory),
    (["p", "Metadata", "Workspace.xml"],
      .file (crossed.documentBytes crossedContents.workspace.objects)),
    (["p", "Metadata", "Master.xml"],
      .file (crossed.documentBytes crossedContents.master.objects))], by decide⟩

theorem holds_crossedFiles : Holds crossedFiles crossed.layout crossedContents where
  workspace := readRequired_of_has (by decide) (readDocument_of_contentAt? (s := crossed)
    (by decide +kernel) (l := ["p", "Metadata", "Workspace.xml"]) (by decide) rfl)
  master := readRequired_of_has (by decide +kernel) (readDocument_of_contentAt? (s := crossed)
    (by decide +kernel) (l := ["p", "Metadata", "Master.xml"]) (by decide +kernel) rfl)
  documents := by
    have hmissing : ∀ k ∈ Kind.all, ∀ dir ∈ k.directories,
        crossedFiles.list (crossed.layout.documentDir dir) = .error .notFound := by decide +kernel
    exact fun k dir hdir => documentsIn_of_missing (hmissing k k.mem_all dir hdir)

theorem presents_crossed : Presents crossedContents crossed where
  model := rfl
  masters := rfl
  indices := rfl
  masterBus := by decide
  eventFolder := by decide
  bankFolder := by decide +kernel
  assetFolder := by decide

/-- It opens, although the root of its event folders is a folder of banks and no event folder. -/
theorem event_folder_root_of_banks :
    load crossedFiles crossed.layout crossed.keepJournals = .ok crossed ∧
      crossed.contains .bank (crossed.root .eventFolder) = true ∧
      crossed.contains .eventFolder (crossed.root .eventFolder) = false :=
  ⟨load_eq_ok_of_holds holds_crossedFiles presents_crossed, by decide +kernel, by decide +kernel⟩

end Store

end AudioProject
