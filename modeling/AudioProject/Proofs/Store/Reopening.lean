import AudioProject.Proofs.Store.OnDisk
import Mathlib.Data.String.Basic

/-
  Reading a project again after one more document has come. The document takes its place among
  those of its directory by its name (`documentsIn_of_new`), everything else is read as before, and
  the index that is made from all of them answers as if the new entry had come last. So a store
  that has what the documents say, up to the order in which entries came (`Restates`), still has it
  when it takes in the entry (`Restates.comes`); and a project with such a store can be opened, to
  a store that answers alike (`load_of_restates`).
-/

namespace AudioProject

open FileTree AudioProject.Path

/-- A list that goes with two lists in a row is two lists in a row. -/
theorem exists_of_forall₂_append {α β : Type} {R : α → β → Prop} {xs ys : List α} {zs : List β}
    (h : List.Forall₂ R (xs ++ ys) zs) :
    ∃ us vs, List.Forall₂ R xs us ∧ List.Forall₂ R ys vs ∧ zs = us ++ vs := by
  induction xs generalizing zs with
  | nil => exact ⟨[], zs, .nil, h, rfl⟩
  | cons x xs ih =>
    cases h with
    | cons hx hrest =>
      obtain ⟨us, vs, hus, hvs, rfl⟩ := ih hrest
      exact ⟨_ :: us, vs, .cons hx hus, hvs, rfl⟩

/-- One name more in an ascending list stands between those before it and those behind it. -/
theorem exists_insertion {xs ys : List String} {n : String} (hxs : xs.Pairwise (· < ·))
    (hys : ys.Pairwise (· < ·)) (hn : n ∉ xs) (hmem : ∀ m, m ∈ ys ↔ m = n ∨ m ∈ xs) :
    ∃ front back, xs = front ++ back ∧ ys = front ++ n :: back := by
  obtain ⟨front, back, rfl⟩ := List.append_of_mem ((hmem n).2 (Or.inl rfl))
  have hsublist : (front ++ back).Sublist (front ++ n :: back) :=
    (List.Sublist.refl front).append (List.sublist_cons_self n back)
  have hother : n ∉ front ++ back := by
    have hnodup := hys.imp fun h => ne_of_lt h
    exact (List.nodup_middle.1 hnodup).notMem
  refine ⟨front, back, List.Pairwise.eq_of_mem_iff hxs (hys.sublist hsublist) fun m => ?_, rfl⟩
  constructor
  · intro hm
    have hne : m ≠ n := fun h => hn (h ▸ hm)
    simpa [hne] using (hmem m).2 (Or.inr hm)
  · intro hm
    have hne : m ≠ n := fun h => hother (h ▸ hm)
    exact ((hmem m).1 (hsublist.subset hm)).resolve_left hne

/-- No two kinds share a directory. -/
theorem Kind.eq_of_mem_directories {k j : Kind} {dir : String} (hk : dir ∈ k.directories)
    (hj : dir ∈ j.directories) : k = j := by
  have hall : ∀ k ∈ Kind.all, ∀ j ∈ Kind.all, ∀ dir ∈ k.directories, dir ∈ j.directories →
      k = j := by decide
  exact hall k k.mem_all j j.mem_all dir hk hj

namespace Store

variable {t t' : FileTree} {l : Layout} {base : Location} {dir n : String} {k : Kind}
  {b : ByteArray} {d : Document}

/-! ## Directories -/

theorem forall₂_reads_keeps {names : List String} {ds : List (Path × Document)}
    (hnames : ∀ n ∈ names, IsXml n) (hkeeps : Keeps (IsContent t) t t')
    (h : List.Forall₂ (Reads t l dir) names ds) : List.Forall₂ (Reads t' l dir) names ds := by
  refine ((List.forall₂_and_left names ds).2 ⟨hnames, h⟩).imp ?_
  rintro n ⟨path, d⟩ ⟨hn, rfl, hd⟩
  exact ⟨rfl, readDocument_keeps hn hkeeps hd⟩

/-- A directory whose contents are as before is read as before. -/
theorem documentsIn_congr (h : Anchored t l base) (h' : Anchored t' l base)
    (hdir : IsDocumentDir dir) (hkeeps : Keeps (IsContent t) t t')
    (hnothing : t'.contentAt? (base ++ [metadataName, dir]) =
      t.contentAt? (base ++ [metadataName, dir]))
    (hcontent : ∀ n, IsXml n →
      t'.contentAt? (base ++ namesOf dir n) = t.contentAt? (base ++ namesOf dir n))
    {ds : List (Path × Document)} (hds : documentsIn t (l.documentDir dir) = .ok ds) :
    documentsIn t' (l.documentDir dir) = .ok ds := by
  obtain ⟨hcheck, hnone, hall⟩ := (documentsIn_eq_ok_iff h hdir).1 hds
  have hnames : fileNames t' l base dir = fileNames t l base dir := by
    refine List.Pairwise.eq_of_mem_iff (pairwise_fileNames t' l base dir)
      (pairwise_fileNames t l base dir) fun n => ?_
    rw [mem_fileNames h hdir, mem_fileNames h' hdir]
    refine and_congr_right fun hn => ?_
    rw [hcontent n hn]
  refine (documentsIn_eq_ok_iff h' hdir).2 ⟨hcheck, hnothing.trans hnone, ?_⟩
  rw [hnames]
  exact forall₂_reads_keeps (fun n hn => ((mem_fileNames h hdir).1 hn).1) hkeeps hall

/-- A document that is new in its directory is read between those before it and those behind it,
if the others there hold what they held. -/
theorem documentsIn_of_new (h : Anchored t l base) (h' : Anchored t' l base)
    (hdir : IsDocumentDir dir) (hn : IsXml n)
    (hnew : t.contentAt? (base ++ namesOf dir n) = none)
    (hothers : ∀ m, IsXml m → m ≠ n →
      t'.contentAt? (base ++ namesOf dir m) = t.contentAt? (base ++ namesOf dir m))
    (hd : readDocument t' ((l.documentDir dir).join n) = .ok d)
    {ds : List (Path × Document)} (hds : documentsIn t (l.documentDir dir) = .ok ds) :
    ∃ front back, ds = front ++ back ∧ documentsIn t' (l.documentDir dir) =
      .ok (front ++ ((l.documentDir dir).join n, d) :: back) := by
  obtain ⟨hcheck, -, hall⟩ := (documentsIn_eq_ok_iff h hdir).1 hds
  obtain ⟨b, _, hread, -, -⟩ := readDocument_eq_ok.1 hd
  obtain ⟨hproper, hcontent⟩ := (read_document h' hdir hn).1 hread
  have hold : n ∉ fileNames t l base dir := by
    intro hmem
    obtain ⟨-, -, b', hb'⟩ := (mem_fileNames h hdir).1 hmem
    rw [hnew] at hb'
    cases hb'
  have hmem : ∀ m, m ∈ fileNames t' l base dir ↔ m = n ∨ m ∈ fileNames t l base dir := by
    intro m
    rw [mem_fileNames h hdir, mem_fileNames h' hdir]
    by_cases hm : m = n
    · subst hm
      simp [hn, hproper, hcontent]
    · rw [or_iff_right hm]
      refine and_congr_right fun hxml => ?_
      rw [hothers m hxml hm]
  obtain ⟨front, back, hnames, hnames'⟩ := exists_insertion (pairwise_fileNames t l base dir)
    (pairwise_fileNames t' l base dir) hold hmem
  have hkept : ∀ m ∈ front ++ back, ∀ e, Reads t l dir m e → Reads t' l dir m e := by
    rintro m hm ⟨path, d'⟩ ⟨rfl, hd'⟩
    have hne : m ≠ n := fun hsame => hold (hnames ▸ hsame ▸ hm)
    obtain ⟨hxml, -⟩ := (mem_fileNames h hdir).1 (hnames ▸ hm)
    refine ⟨rfl, readDocument_of_reads (fun b hb => ?_) hd'⟩
    rw [read_document h hdir hxml, ← hothers m hxml hne] at hb
    exact (read_document h' hdir hxml).2 hb
  have hall' : List.Forall₂ (Reads t' l dir) (front ++ back) ds :=
    ((List.forall₂_and_left _ _).2 ⟨fun _ hm => hm, hnames ▸ hall⟩).imp
      fun m e he => hkept m he.1 e he.2
  obtain ⟨us, vs, hus, hvs, rfl⟩ := exists_of_forall₂_append hall'
  have hdirectory : t'.node? (base ++ [metadataName, dir]) = some .directory := by
    refine h'.well.tree _ n ?_
    rw [List.append_assoc]
    exact node?_ne_none_of_contentAt? hcontent
  refine ⟨us, vs, rfl, (documentsIn_eq_ok_iff h' hdir).2 ⟨hcheck, ?_, ?_⟩⟩
  · unfold contentAt?
    rw [hdirectory]
  · rw [hnames']
    exact List.rel_append hus (.cons ⟨rfl, hd⟩ hvs)

/-! ## All that is read -/

/-- Other documents in one directory. -/
def Contents.put (c : Contents) (dir : String) (ds : List (Path × Document)) : Contents :=
  { c with documents := fun dir' => if dir' = dir then ds else c.documents dir' }

theorem Holds.idle {c : Contents} (hholds : Holds t l c) (h : Anchored t l base)
    (h' : Anchored t' l base) (hkeeps : Keeps IsSettled t t') : Holds t' l c := by
  have hcontents : Keeps (IsContent t) t t' := hkeeps.mono fun _ hj => hj.1
  constructor
  · exact readRequired_eq_ok.2
      (readDocument_keeps isXml_workspace hcontents (readRequired_eq_ok.1 hholds.workspace))
  · exact readRequired_eq_ok.2
      (readDocument_keeps isXml_master hcontents (readRequired_eq_ok.1 hholds.master))
  · intro k dir hmem
    have hdir := isDocumentDir_of_mem hmem
    exact documentsIn_congr h h' hdir hcontents
      (hkeeps.content _ (isSettled_documentDir base hdir))
      (fun n hn => hkeeps.content _ (isSettled_namesOf base dir hn)) (hholds.documents k dir hmem)

theorem Holds.comes {c : Contents} (hholds : Holds t l c) (h : Anchored t l base)
    (h' : Anchored t' l base) (hmem : dir ∈ k.directories) (hn : IsXml n)
    (hcomes : Comes (base ++ namesOf dir n) b t t')
    (hd : readDocument t' ((l.documentDir dir).join n) = .ok d) :
    ∃ front back, c.documents dir = front ++ back ∧
      Holds t' l (c.put dir (front ++ ((l.documentDir dir).join n, d) :: back)) := by
  have hothers : ∀ m, IsXml m → m ≠ n →
      t'.contentAt? (base ++ namesOf dir m) = t.contentAt? (base ++ namesOf dir m) := by
    intro m hxml hm
    have hother : base ++ namesOf dir m ≠ base ++ namesOf dir n := by simpa [namesOf] using hm
    exact hcomes.others.content _ ⟨isSettled_namesOf base dir hxml, hother⟩
  obtain ⟨front, back, hold, hnew⟩ := documentsIn_of_new h h' (isDocumentDir_of_mem hmem) hn
    hcomes.absent hothers hd (hholds.documents k dir hmem)
  refine ⟨front, back, hold, ?_, ?_, ?_⟩
  · exact readRequired_eq_ok.2
      (readDocument_keeps isXml_workspace hcomes.keeps (readRequired_eq_ok.1 hholds.workspace))
  · exact readRequired_eq_ok.2
      (readDocument_keeps isXml_master hcomes.keeps (readRequired_eq_ok.1 hholds.master))
  · intro j dir' hmem'
    show _ = Except.ok (if dir' = dir then _ else _)
    by_cases hsame : dir' = dir
    · rw [if_pos hsame, hsame]
      exact hnew
    · rw [if_neg hsame]
      have hdir := isDocumentDir_of_mem hmem'
      refine documentsIn_congr h h' hdir hcomes.keeps ?_ (fun m hm => ?_)
        (hholds.documents j dir' hmem')
      · exact hcomes.others.content _ ⟨isSettled_documentDir base hdir, by simp [namesOf]⟩
      · exact hcomes.others.content _
          ⟨isSettled_namesOf base dir' hm, by simp [namesOf, hsame]⟩

namespace Contents

variable {c : Contents} {front back : List (Path × Document)}

theorem objects_put_of_not_mem (hdir : dir ∉ k.directories) (ds : List (Path × Document)) :
    (c.put dir ds).objects k = c.objects k := by
  have hfirst : (c.put dir ds).first k = c.first k := by cases k <;> rfl
  have hsame : k.directories.flatMap (c.put dir ds).documents = k.directories.flatMap c.documents :=
    List.flatMap_congr fun dir' hdir' => if_neg fun h : dir' = dir => hdir (h ▸ hdir')
  unfold objects
  rw [hfirst, hsame]

/-- The objects of a document that comes stand in a row among those of its kind. -/
theorem objects_put (hdir : dir ∈ k.directories) (hold : c.documents dir = front ++ back)
    (e : Path × Document) : ∃ os os', c.objects k = os ++ os' ∧
      (c.put dir (front ++ e :: back)).objects k = os ++ (e.2.objects ++ os') := by
  obtain ⟨before, after, hsplit⟩ := List.append_of_mem hdir
  have hnodup : k.directories.Nodup := by cases k <;> decide
  rw [hsplit] at hnodup
  have hother : ∀ dirs : List String, dir ∉ dirs →
      dirs.flatMap (c.put dir (front ++ e :: back)).documents = dirs.flatMap c.documents := by
    intro dirs hdirs
    exact List.flatMap_congr fun dir' hdir' => if_neg fun h : dir' = dir => hdirs (h ▸ hdir')
  have hnot : dir ∉ before ++ after := (List.nodup_middle.1 hnodup).notMem
  rw [List.mem_append, not_or] at hnot
  have hfirst : (c.put dir (front ++ e :: back)).first k = c.first k := by cases k <;> rfl
  have hthis : (c.put dir (front ++ e :: back)).documents dir = front ++ e :: back := if_pos rfl
  refine ⟨(c.first k).objects ++ (before.flatMap c.documents ++ front).flatMap fun d => d.2.objects,
    (back ++ after.flatMap c.documents).flatMap fun d => d.2.objects, ?_, ?_⟩
  · unfold objects
    rw [hsplit]
    simp [hold]
  · unfold objects
    rw [hfirst, hsplit]
    simp [hother before hnot.1, hother after hnot.2, hthis]

/-- The index that is made from one document more answers as if its entry had come last. -/
theorem alike_index_put {e : IndexEntry} {path : Path} (hdir : dir ∈ k.directories)
    (hold : c.documents dir = front ++ back)
    (he : d.objects.filterMap (IndexEntry.ofObject? k) = [e])
    (hid : (c.index k).contains e.id = false)
    (hpath : ∀ p, e.assetPath? = some p → ((c.index k).paths.get? p).isSome = false) :
    KindIndex.Alike ((c.index k).insert e) ((c.put dir (front ++ (path, d) :: back)).index k) := by
  obtain ⟨os, os', hbefore, hafter⟩ := objects_put (c := c) hdir hold (path, d)
  unfold index at hid hpath ⊢
  rw [hbefore] at hid hpath ⊢
  rw [hafter]
  exact .insertObjects_comm _ he hid hpath

end Contents

/-! ## Stores up to the order of entries -/

theorem masterBusOf_eq_ok {x : KindIndex} {id : ObjectId} :
    masterBusOf x = .ok id ↔ x.roots.map IndexEntry.id = [id] := by
  unfold masterBusOf
  split
  · next id' h => simp [h]
  · next h => simp [h]
  · next ids hone hnone =>
    constructor
    · intro h
      cases h
    · intro h
      exact absurd h (hone id)

/-- The only root does not depend on the order of the entries. -/
theorem masterBusOf_congr {x y : KindIndex} (h : x.Alike y) {id : ObjectId}
    (hx : masterBusOf x = .ok id) : masterBusOf y = .ok id := by
  rw [masterBusOf_eq_ok] at hx ⊢
  have hperm : (y.roots.map IndexEntry.id).Perm (x.roots.map IndexEntry.id) :=
    ((OrderedMap.perm_values h.get?).filter _).map _
  rw [hx] at hperm
  exact List.perm_singleton.1 hperm

/-- An entry below another one is no second root. -/
theorem masterBusOf_insert {x : KindIndex} {e : IndexEntry} (hnew : x.contains e.id = false)
    (hroot : e.isRoot = false) {id : ObjectId} (h : masterBusOf x = .ok id) :
    masterBusOf (x.insert e) = .ok id := by
  rw [masterBusOf_eq_ok] at h ⊢
  have hkey : e.id ∉ x.entries.keys := by
    intro hmem
    have hin : x.contains e.id = true := (x.entries.contains_iff e.id).2 hmem
    rw [hnew] at hin
    cases hin
  have hlist : (x.insert e).list = x.list ++ [e] := by
    show (x.entries.insert e.id e).values = _
    unfold OrderedMap.values
    rw [OrderedMap.toList_insert_of_not_mem _ hkey, List.map_append]
    rfl
  have hroots : (x.insert e).roots = x.roots := by
    unfold KindIndex.roots
    rw [hlist, List.filter_append, List.filter_singleton, hroot]
    exact List.append_nil _
  rw [hroots]
  exact h

theorem checkMaster_eq_ok {x : ByKind KindIndex} {what : String} {id : ObjectId} :
    checkMaster x what id = .ok () ↔ x.eventFolder.contains id = true ∨
      x.bank.contains id = true ∨ x.assetFolder.contains id = true := by
  unfold checkMaster
  split
  · next h => simpa [or_assoc] using h
  · next h => simpa [or_assoc] using h

/-- Each master is in some folder index, and one bus is the root of all. -/
structure HasMasters (s : Store) : Prop where
  bus : masterBusOf (s.index .bus) = .ok s.masterBus
  eventFolder : checkMaster s.indices "master event folder" s.masters.eventFolder = .ok ()
  bankFolder : checkMaster s.indices "master bank folder" s.masters.bankFolder = .ok ()
  assetFolder : checkMaster s.indices "master asset folder" s.masters.assetFolder = .ok ()

theorem checkMaster_mono {x y : ByKind KindIndex} {what : String} {id : ObjectId}
    (h : ∀ k, (x.get k).contains id = true → (y.get k).contains id = true)
    (hx : checkMaster x what id = .ok ()) : checkMaster y what id = .ok () := by
  rw [checkMaster_eq_ok] at hx ⊢
  exact hx.imp (h .eventFolder) (.imp (h .bank) (h .assetFolder))

theorem HasMasters.insert {s : Store} (h : s.HasMasters) {e : IndexEntry}
    (hnew : s.contains k e.id = false) (hroot : k = .bus → e.isRoot = false) :
    (s.insert k e).HasMasters := by
  have hmono : ∀ id j, (s.indices.get j).contains id = true →
      ((s.insert k e).indices.get j).contains id = true := by
    intro id j hid
    show ((s.insert k e).index j).contains id = true
    rw [index_insert]
    split
    · rw [KindIndex.contains_insert, show (s.index j).contains id = true from hid, Bool.or_true]
    · exact hid
  refine ⟨?_, checkMaster_mono (hmono _) h.eventFolder, checkMaster_mono (hmono _) h.bankFolder,
    checkMaster_mono (hmono _) h.assetFolder⟩
  rw [index_insert]
  split
  · next hk =>
    subst hk
    exact masterBusOf_insert hnew (hroot rfl) h.bus
  · exact h.bus

/-- A store has what the documents say, in whichever order the entries came. -/
structure Restates (c : Contents) (s : Store) : Prop where
  model : s.model = c.workspace.model
  masters : mastersOf c.workspace = .ok s.masters
  indices : ∀ k, KindIndex.Alike (s.index k) (c.index k)
  hasMasters : s.HasMasters
  sound : s.IsSound

theorem Presents.restates {c : Contents} {s : Store} (h : Presents c s) : Restates c s where
  model := h.model
  masters := h.masters
  indices := by
    intro k
    rw [h.index]
    exact .refl _
  hasMasters := by
    have hbus := h.index .bus
    refine ⟨hbus ▸ h.masterBus, ?_, ?_, ?_⟩
    · exact h.indices ▸ h.eventFolder
    · exact h.indices ▸ h.bankFolder
    · exact h.indices ▸ h.assetFolder
  sound := h.isSound

/-- A store that takes in the entry of a document that comes has what the documents say then. -/
theorem Restates.comes {c : Contents} {s : Store} (h : Restates c s)
    {front back : List (Path × Document)} {e : IndexEntry} {path : Path}
    (hdir : dir ∈ k.directories) (hold : c.documents dir = front ++ back)
    (he : d.objects.filterMap (IndexEntry.ofObject? k) = [e]) (hid : s.contains k e.id = false)
    (hpath : ∀ p, e.assetPath? = some p → ((s.index k).paths.get? p).isSome = false)
    (hroot : k = .bus → e.isRoot = false) :
    Restates (c.put dir (front ++ (path, d) :: back)) (s.insert k e) where
  model := h.model
  masters := h.masters
  indices := by
    intro j
    rw [index_insert]
    split
    · next hk =>
      subst hk
      refine ((h.indices k).insert e).trans (Contents.alike_index_put hdir hold he ?_ ?_)
      · rw [(h.indices k).contains]
        exact hid
      · intro p hp
        rw [(h.indices k).paths]
        exact hpath p hp
    · next hk =>
      have hsame := Contents.objects_put_of_not_mem (c := c) (k := j)
        (fun hj => hk (Kind.eq_of_mem_directories hdir hj)) (front ++ (path, d) :: back)
      unfold Contents.index
      rw [hsame]
      exact h.indices j
  hasMasters := h.hasMasters.insert hid hroot
  sound := h.sound.insert k e

/-! ## Opening again -/

/-- Two stores give the same answers. -/
structure Alike (s s' : Store) : Prop where
  model : s'.model = s.model
  masters : s'.masters = s.masters
  masterBus : s'.masterBus = s.masterBus
  lookup? : ∀ k id, s'.lookup? k id = s.lookup? k id
  parent? : ∀ k id, s'.parent? k id = s.parent? k id
  children : ∀ k id, s'.children k id = s.children k id
  ancestors : ∀ k id, s'.ancestors k id = s.ancestors k id
  assetFolderAt? : ∀ p, s'.assetFolderAt? p = s.assetFolderAt? p

theorem alike_of_indices {s s' : Store} (hmodel : s'.model = s.model)
    (hmasters : s'.masters = s.masters) (hbus : s'.masterBus = s.masterBus)
    (hindices : ∀ k, KindIndex.Alike (s.index k) (s'.index k)) (hs : s.IsSound)
    (hs' : s'.IsSound) : Alike s s' where
  model := hmodel
  masters := hmasters
  masterBus := hbus
  lookup? := fun k id => (hindices k).get? id
  parent? := fun k id => (hindices k).parent? id
  children := by
    intro k id
    unfold Store.children
    rw [(hs k).coherent.children_congr (hs' k).coherent (hindices k).parent?,
      funext (hindices k).get?]
  ancestors := fun k id => Hierarchy.ancestors_congr (hindices k).parent? id
  assetFolderAt? := fun p => (hindices .assetFolder).byPath? p

theorem load_of_restates {c : Contents} {s : Store} (hholds : Holds t s.layout c)
    (h : Restates c s) : ∃ s', load t s.layout s.keepJournals = .ok s' ∧ Alike s s' := by
  let s' : Store := { s with indices := c.indices }
  have hcontains : ∀ id k, (s.indices.get k).contains id = true →
      (c.indices.get k).contains id = true := by
    intro id k hid
    rw [c.get_indices, (h.indices k).contains]
    exact hid
  have hpresents : Presents c s' :=
    ⟨h.model, h.masters, rfl, masterBusOf_congr (h.indices .bus) h.hasMasters.bus,
      checkMaster_mono (hcontains _) h.hasMasters.eventFolder,
      checkMaster_mono (hcontains _) h.hasMasters.bankFolder,
      checkMaster_mono (hcontains _) h.hasMasters.assetFolder⟩
  refine ⟨s', load_eq_ok_of_holds (s := s') hholds hpresents, ?_⟩
  refine alike_of_indices rfl rfl rfl (fun k => ?_) h.sound hpresents.isSound
  rw [hpresents.index]
  exact h.indices k

end Store

end AudioProject
