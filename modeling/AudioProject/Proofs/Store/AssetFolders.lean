import AudioProject.Proofs.AssetPath
import AudioProject.Proofs.KindIndex.Views
import AudioProject.Proofs.Staging.Steps
import AudioProject.Proofs.Store.Loading

/-
  The asset folders above and below a path. The documents of a project define the entries of its
  index (`Defines`): those that were read, and those of the records that were written since. Where
  these have distinct ids and distinct paths, the folders above a path are all that the documents
  define above it, nearest first, and the folders below a path are all below it, each followed at
  once by those below itself. So a folder is listed below another exactly if the other is listed
  above it: `asset_folders_are_dual`.
-/

namespace AudioProject

open AssetPath

/-- Where one entry at most has a value, the last that has it is this one. -/
theorem latest?_eq_some_iff {α : Type} [DecidableEq α] {es : List IndexEntry} {f : IndexEntry → α}
    (hnodup : (es.map f).Nodup) {a : α} {e : IndexEntry} :
    latest? es (fun e => f e = a) = some e ↔ e ∈ es ∧ f e = a := by
  constructor
  · intro h
    obtain ⟨hmem, ha⟩ := exists_of_latest? h
    exact ⟨hmem, of_decide_eq_true ha⟩
  · rintro ⟨hmem, rfl⟩
    obtain ⟨e', he'⟩ : ∃ e', latest? es (fun e' => f e' = f e) = some e' :=
      exists_latest? hmem (decide_eq_true rfl)
    obtain ⟨hmem', hsame⟩ := exists_of_latest? he'
    rw [he', List.inj_on_of_nodup_map hnodup hmem' hmem (of_decide_eq_true hsame)]

/-- A list in which `b` never comes after others begins with all that `b` holds of. -/
theorem eq_filter_append {α : Type} (b : α → Bool) {list : List α}
    (h : list.Pairwise fun x y => b y = true → b x = true) :
    list = list.filter b ++ list.filter fun x => !b x := by
  induction list with
  | nil => rfl
  | cons x list ih =>
    obtain ⟨hhead, htail⟩ := List.pairwise_cons.1 h
    cases hx : b x with
    | true =>
      rw [List.filter_cons_of_pos hx, List.filter_cons_of_neg (by simp [hx]), List.cons_append,
        ← ih htail]
    | false =>
      -- what comes after `x` is as little of it
      have hnone : ∀ y ∈ x :: list, b y = false := by
        rintro y hy
        rcases List.mem_cons.1 hy with rfl | hy
        · exact hx
        · exact Bool.eq_false_iff.2 fun hy' => Bool.false_ne_true (hx.symm.trans (hhead y hy hy'))
      rw [List.filter_eq_nil_iff.2 fun y hy => Bool.eq_false_iff.1 (hnone y hy),
        List.filter_eq_self.2 fun y hy => by rw [hnone y hy]; rfl, List.nil_append]

/-- In a list that ascends by `r`, what holds only after `a` and without a gap follows `a` at
once. -/
theorem exists_block {α : Type} {r : α → α → Prop} {list : List α} {a : α} (b : α → Bool)
    (hlist : list.Pairwise r) (ha : a ∈ list) (hself : b a = false)
    (hbefore : ∀ x, r x a → b x = false)
    (hbetween : ∀ x y, r a x → r x y → b y = true → b x = true) :
    ∃ front back, list = front ++ a :: (list.filter b ++ back) ∧
      ∀ x ∈ front ++ back, b x = false := by
  obtain ⟨front, rest, rfl⟩ := List.append_of_mem ha
  obtain ⟨-, hrest, hcross⟩ := List.pairwise_append.1 hlist
  obtain ⟨hafter, hrest⟩ := List.pairwise_cons.1 hrest
  have hfront : ∀ x ∈ front, b x = false :=
    fun x hx => hbefore x (hcross x hx a List.mem_cons_self)
  have hsplit : rest = rest.filter b ++ rest.filter fun x => !b x :=
    eq_filter_append b <| hrest.imp_of_mem fun {x y} hx _ hxy => hbetween x y (hafter x hx) hxy
  refine ⟨front, rest.filter fun x => !b x, ?_, ?_⟩
  · rw [List.filter_append, List.filter_cons_of_neg (by simp [hself]),
      List.filter_eq_nil_iff.2 fun x hx => Bool.eq_false_iff.1 (hfront x hx), List.nil_append,
      ← hsplit]
  · intro x hx
    rcases List.mem_append.1 hx with hx | hx
    · exact hfront x hx
    · simpa using (List.mem_filter.1 hx).2

theorem IndexEntry.exists_path {o : Object} {e : IndexEntry}
    (h : ofObject? .assetFolder o = some e) : ∃ p, e.assetPath? = some p := by
  obtain ⟨position, hposition, rfl⟩ := Option.map_eq_some_iff.1 h
  unfold position? at hposition
  split at hposition
  · cases hposition
    exact ⟨.root, rfl⟩
  · split at hposition
    · dsimp only [Kind.parentEdge?] at hposition
      split at hposition
      · cases hposition
      · split at hposition
        · cases hposition
          exact ⟨_, rfl⟩
        · cases hposition
    · cases hposition

namespace Store

variable {s : Store} {k : Kind} {es : List IndexEntry} {e f : IndexEntry} {p q : AssetPath}

/-! ## What the documents define -/

/-- The entries of a kind that the documents of a project define, in the order in which they came
into its index. -/
inductive Defines (k : Kind) : Store → List IndexEntry → Prop where
  | read {t : FileTree} {s : Store} {c : Contents} (hholds : Holds t s.layout c)
      (hpresents : Presents c s) :
    Defines k s ((c.objects k).filterMap (IndexEntry.ofObject? k))
  | write {s : Store} {es : List IndexEntry} {j : Kind} {o : Object} {e : IndexEntry}
      (h : Defines k s es) (he : IndexEntry.ofObject? j o = some e) :
    Defines k (s.insert j e) (es ++ if j = k then [e] else [])

/-- The documents of a project that is opened define its index. -/
theorem exists_defines_of_load {t : FileTree} {l : Layout} {keep : Bool} (k : Kind)
    (h : load t l keep = .ok s) : ∃ es, Defines k s es := by
  obtain ⟨rfl, -, c, hholds, hpresents⟩ := load_eq_ok_iff.1 h
  exact ⟨_, .read hholds hpresents⟩

/-- A commit adds the entries of the records that it writes. -/
theorem Defines.steps {x y : Session} (h : Defines k x.store es) (hsteps : Session.Steps x y) :
    ∃ es', Defines k y.store (es ++ es') := by
  induction hsteps with
  | refl => exact ⟨[], by rwa [List.append_nil]⟩
  | idle _ last ih =>
    rw [last.store]
    exact ih
  | write _ last ih =>
    obtain ⟨es', hdefines⟩ := ih
    obtain ⟨e, he, hstore⟩ := last.entry
    rw [hstore]
    exact ⟨_, List.append_assoc _ _ _ ▸ hdefines.write he⟩

/-- The index of a kind has just what the documents define. -/
theorem Defines.index_eq (h : Defines k s es) : s.index k = KindIndex.entered k es := by
  induction h with
  | read _ hpresents =>
    rw [hpresents.index]
    exact KindIndex.insertObjects_eq_foldl _ _
  | @write s es j o e _ _ ih =>
    rw [index_insert]
    split
    · rw [KindIndex.entered_concat, ih]
    · rw [List.append_nil, ih]

theorem Defines.exists_path (h : Defines .assetFolder s es) (he : e ∈ es) :
    ∃ p, e.assetPath? = some p := by
  induction h with
  | read =>
    obtain ⟨o, -, ho⟩ := List.mem_filterMap.1 he
    exact IndexEntry.exists_path ho
  | @write s es j o e' _ he' ih =>
    rcases List.mem_append.1 he with he | he
    · exact ih he
    · by_cases hj : j = .assetFolder
      · subst hj
        rw [if_pos rfl, List.mem_singleton] at he
        exact he ▸ IndexEntry.exists_path he'
      · rw [if_neg hj] at he
        cases he

/-- The documents define asset folders with distinct ids at distinct paths. -/
structure DefinesFolders (s : Store) (es : List IndexEntry) : Prop where
  defines : Defines .assetFolder s es
  ids : (es.map IndexEntry.id).Nodup
  paths : (es.map IndexEntry.assetPath?).Nodup

theorem DefinesFolders.mem_entries_iff (h : DefinesFolders s es) :
    e ∈ s.entries .assetFolder ↔ e ∈ es := by
  unfold entries
  rw [KindIndex.mem_list_iff, h.defines.index_eq, KindIndex.get?_entered]
  unfold latestOf?
  rw [latest?_eq_some_iff h.ids, and_iff_left rfl]

theorem DefinesFolders.assetFolderAt?_iff (h : DefinesFolders s es) :
    s.assetFolderAt? p = some e ↔ e ∈ es ∧ e.assetPath? = some p := by
  unfold assetFolderAt?
  rw [h.defines.index_eq, KindIndex.byPath?_entered, Option.bind_eq_some_iff]
  unfold latestAt? latestOf?
  constructor
  · rintro ⟨e', he', he⟩
    obtain ⟨hmem', hp⟩ := (latest?_eq_some_iff h.paths).1 he'
    obtain ⟨hmem, hid⟩ := (latest?_eq_some_iff h.ids).1 he
    rw [List.inj_on_of_nodup_map h.ids hmem hmem' hid]
    exact ⟨hmem', hp⟩
  · intro he
    exact ⟨e, (latest?_eq_some_iff h.paths).2 he, (latest?_eq_some_iff h.ids).2 ⟨he.1, rfl⟩⟩

/-! ## Above a path -/

/-- The folder is at a path above `p`. -/
def IsAbove (e : IndexEntry) (p : AssetPath) : Prop := ∃ q, e.assetPath? = some q ∧ q.Above p

/-- The folder is at a path below `q`. -/
def IsBelow (f : IndexEntry) (q : AssetPath) : Prop := ∃ p, f.assetPath? = some p ∧ q.Above p

/-- All folders above a path, each once, and the nearer before those above it. -/
structure ListsAbove (es : List IndexEntry) (p : AssetPath) (list : List IndexEntry) : Prop where
  mem_iff : ∀ e, e ∈ list ↔ e ∈ es ∧ IsAbove e p
  nearest : list.Pairwise fun a b => ∃ x, a.assetPath? = some x ∧ IsAbove b x
  nodup : list.Nodup

theorem DefinesFolders.mem_assetAncestors_iff (h : DefinesFolders s es) :
    e ∈ s.assetAncestors p ↔ e ∈ es ∧ IsAbove e p := by
  unfold assetAncestors
  rw [List.mem_filterMap]
  constructor
  · rintro ⟨q, hq, he⟩
    obtain ⟨hmem, hpath⟩ := h.assetFolderAt?_iff.1 he
    exact ⟨hmem, q, hpath, mem_parents_iff.1 hq⟩
  · rintro ⟨hmem, q, hpath, habove⟩
    exact ⟨q, mem_parents_iff.2 habove, h.assetFolderAt?_iff.2 ⟨hmem, hpath⟩⟩

theorem DefinesFolders.listsAbove (h : DefinesFolders s es) (p : AssetPath) :
    ListsAbove es p (s.assetAncestors p) := by
  have hnearest : (s.assetAncestors p).Pairwise fun a b => ∃ x, a.assetPath? = some x ∧
      IsAbove b x := by
    unfold assetAncestors
    rw [List.pairwise_filterMap]
    refine (pairwise_parents p).imp fun {x y} habove a ha b hb => ?_
    exact ⟨x, (h.assetFolderAt?_iff.1 ha).2, y, (h.assetFolderAt?_iff.1 hb).2, habove⟩
  refine ⟨fun _ => h.mem_assetAncestors_iff, hnearest, hnearest.imp ?_⟩
  rintro a b ⟨x, hx, y, hy, habove⟩ rfl
  cases hx.symm.trans hy
  exact habove.2 rfl

/-! ## Below a path -/

/-- All folders below a path, each once, and each followed by the folders below itself, before any
other. -/
structure ListsBelow (s : Store) (es : List IndexEntry) (q : AssetPath) (list : List IndexEntry) :
    Prop where
  mem_iff : ∀ f, f ∈ list ↔ f ∈ es ∧ IsBelow f q
  nodup : list.Nodup
  subtree : ∀ f p, f ∈ list → f.assetPath? = some p →
    ∃ front back, list = front ++ f :: (s.assetDescendants p ++ back) ∧
      ∀ g ∈ front ++ back, ¬ IsBelow g p

theorem pathText_of_path (h : e.assetPath? = some p) : pathText e = p.text := by
  unfold pathText
  rw [h]
  rfl

/-- Whether a folder is below a path. -/
def isBelow (q : AssetPath) (f : IndexEntry) : Bool :=
  match f.assetPath? with
  | some p => q.isAncestorOf p
  | none => false

theorem isBelow_iff : isBelow q f = true ↔ IsBelow f q := by
  unfold isBelow IsBelow
  cases f.assetPath? with
  | none => simp
  | some p => simp [isAncestorOf_iff]

theorem isBelow_eq_false_iff : isBelow q f = false ↔ ¬ IsBelow f q := by
  rw [← isBelow_iff, Bool.not_eq_true]

theorem perm_assetDescendants (s : Store) (q : AssetPath) :
    (s.assetDescendants q).Perm ((s.entries .assetFolder).filter (isBelow q)) :=
  List.mergeSort_perm _ _

theorem nodup_assetDescendants (s : Store) (q : AssetPath) : (s.assetDescendants q).Nodup := by
  rw [(perm_assetDescendants s q).nodup_iff]
  exact (List.Nodup.of_map _ (KindIndex.nodup_ids _)).filter _

theorem DefinesFolders.mem_assetDescendants_iff (h : DefinesFolders s es) :
    f ∈ s.assetDescendants q ↔ f ∈ es ∧ IsBelow f q := by
  rw [(perm_assetDescendants s q).mem_iff, List.mem_filter, h.mem_entries_iff, isBelow_iff]

/-- The written paths ascend, as no two folders have one. -/
theorem DefinesFolders.pairwise_assetDescendants (h : DefinesFolders s es) (q : AssetPath) :
    (s.assetDescendants q).Pairwise fun a b => pathText a < pathText b := by
  have hsorted : (s.assetDescendants q).Pairwise
      fun a b => decide (pathText a ≤ pathText b) = true :=
    List.pairwise_mergeSort
      (fun a b c hab hbc => by
        simpa using String.le_trans (by simpa using hab) (by simpa using hbc))
      (fun a b => by simpa using String.le_total _ _) _
  refine (hsorted.and (nodup_assetDescendants s q)).imp_of_mem ?_
  rintro a b ha hb ⟨hle, hne⟩
  obtain ⟨hmem, x, hx, -⟩ := h.mem_assetDescendants_iff.1 ha
  obtain ⟨hmem', y, hy, -⟩ := h.mem_assetDescendants_iff.1 hb
  refine lt_of_le_of_ne (of_decide_eq_true hle) fun heq => hne ?_
  rw [pathText_of_path hx, pathText_of_path hy, text_inj] at heq
  exact List.inj_on_of_nodup_map h.paths hmem hmem' (by rw [hx, hy, heq])

/-- Only one list of the folders below a path ascends. -/
theorem DefinesFolders.eq_assetDescendants (h : DefinesFolders s es) {list : List IndexEntry}
    (hsorted : list.Pairwise fun a b => pathText a < pathText b)
    (hperm : list.Perm ((s.entries .assetFolder).filter (isBelow q))) :
    list = s.assetDescendants q :=
  List.Perm.eq_of_pairwise (fun _ _ _ _ hab hba => absurd hab hba.not_gt) hsorted
    (h.pairwise_assetDescendants q) (hperm.trans (perm_assetDescendants s q).symm)

/-- The folders below a folder are those of a longer listing that are below it, in its order. -/
theorem DefinesFolders.filter_assetDescendants (h : DefinesFolders s es) (hqp : q.Above p) :
    (s.assetDescendants q).filter (isBelow p) = s.assetDescendants p := by
  refine h.eq_assetDescendants ((h.pairwise_assetDescendants q).filter _) ?_
  have hboth : ∀ g, (isBelow p g && isBelow q g) = isBelow p g := by
    intro g
    cases hg : isBelow p g with
    | false => rfl
    | true =>
      obtain ⟨x, hx, hpx⟩ := isBelow_iff.1 hg
      exact isBelow_iff.2 ⟨x, hx, hqp.trans hpx⟩
  refine ((perm_assetDescendants s q).filter _).trans (List.Perm.of_eq ?_)
  rw [List.filter_filter]
  exact List.filter_congr fun g _ => hboth g

theorem DefinesFolders.listsBelow (h : DefinesFolders s es) (q : AssetPath) :
    ListsBelow s es q (s.assetDescendants q) := by
  refine ⟨fun _ => h.mem_assetDescendants_iff, nodup_assetDescendants s q, ?_⟩
  intro f p hf hp
  obtain ⟨-, p', hp', hqp⟩ := h.mem_assetDescendants_iff.1 hf
  obtain rfl : p = p' := Option.some.inj (hp.symm.trans hp')
  have htext : pathText f = p.text := pathText_of_path hp
  have hself : isBelow p f = false := by
    rw [isBelow_eq_false_iff]
    rintro ⟨x, hx, habove⟩
    obtain rfl : p = x := Option.some.inj (hp.symm.trans hx)
    exact habove.2 rfl
  have hbefore : ∀ g, pathText g < pathText f → isBelow p g = false := by
    intro g hlt
    rw [isBelow_eq_false_iff]
    rintro ⟨x, hx, habove⟩
    rw [htext, pathText_of_path hx] at hlt
    exact hlt.not_gt habove.text_lt
  have hbetween : ∀ g ∈ s.assetDescendants q, ∀ g', pathText f < pathText g →
      pathText g < pathText g' → isBelow p g' = true → isBelow p g = true := by
    intro g hg g' hlt hlt' hbelow
    obtain ⟨z, hz, habove⟩ := isBelow_iff.1 hbelow
    obtain ⟨-, y, hy, -⟩ := h.mem_assetDescendants_iff.1 hg
    rw [htext, pathText_of_path hy] at hlt
    rw [pathText_of_path hy, pathText_of_path hz] at hlt'
    exact isBelow_iff.2 ⟨y, hy, below_of_between habove hlt hlt'.le⟩
  obtain ⟨front, back, hsplit, hothers⟩ := exists_block (isBelow p)
    (List.Pairwise.and_mem.1 (h.pairwise_assetDescendants q)) hf hself
    (fun g hg => hbefore g hg.2.2) fun g g' hg hg' => hbetween g hg.2.1 g' hg.2.2 hg'.2.2
  rw [h.filter_assetDescendants hqp] at hsplit
  exact ⟨front, back, hsplit, fun g hg => isBelow_eq_false_iff.1 (hothers g hg)⟩

/-! ## Both -/

/-- Where the documents define asset folders with distinct ids at distinct paths, the listings
above and below any path are complete and in order, and one undoes the other. -/
theorem asset_folders_are_dual (h : DefinesFolders s es) :
    (∀ e, e ∈ s.entries .assetFolder ↔ e ∈ es) ∧
      (∀ p, ListsAbove es p (s.assetAncestors p)) ∧
      (∀ q, ListsBelow s es q (s.assetDescendants q)) ∧
      ∀ e ∈ es, ∀ f ∈ es, ∀ q p, e.assetPath? = some q → f.assetPath? = some p →
        (f ∈ s.assetDescendants q ↔ e ∈ s.assetAncestors p) := by
  refine ⟨fun _ => h.mem_entries_iff, h.listsAbove, h.listsBelow, ?_⟩
  intro e he f hf q p hq hp
  rw [h.mem_assetDescendants_iff, h.mem_assetAncestors_iff, and_iff_right hf, and_iff_right he]
  unfold IsBelow IsAbove
  rw [hq, hp]
  simp only [Option.some.injEq, exists_eq_left']

/-! ## A level without a folder, and a name that comes before the slash -/

def gigs : AssetPath := ⟨["reels", "gigs"], by decide⟩

def loud : AssetPath := ⟨["reels", "gigs!"], by decide⟩

def late : AssetPath := ⟨["reels", "gigs", "tour", "late"], by decide⟩

/-- The object of an asset folder. -/
def folderAt (id : ObjectId) (p : AssetPath) : Object :=
  ({ id, objectClass := .assetFolder } : Object).setProperty "assetPath" p.text

/-- The entry of an asset folder. -/
def entryAt (id : ObjectId) (p : AssetPath) : IndexEntry := ⟨id, .assetFolder, p.name, .path p⟩

def lateEntry : IndexEntry := entryAt ⟨"4", by decide⟩ late

def gigsEntry : IndexEntry := entryAt ⟨"2", by decide⟩ gigs

def loudEntry : IndexEntry := entryAt ⟨"3", by decide⟩ loud

def reelsEntry : IndexEntry := entryAt ⟨"1", by decide⟩ KindIndex.reels

def tapesEntry : IndexEntry := ⟨loft.root .assetFolder, .masterAssetFolder, "", .path .root⟩

/-- Four asset folders in the loft. -/
def archive : Store :=
  (((loft.insert .assetFolder lateEntry).insert .assetFolder gigsEntry).insert .assetFolder
    loudEntry).insert .assetFolder reelsEntry

theorem definesFolders_archive :
    DefinesFolders archive [tapesEntry, lateEntry, gigsEntry, loudEntry, reelsEntry] := by
  have hread : Defines .assetFolder loft [tapesEntry] := .read holds_loftFiles presents_loft
  have hlate := hread.write (j := .assetFolder) (o := folderAt ⟨"4", by decide⟩ late)
    (e := lateEntry) (by decide +kernel)
  have hgigs := hlate.write (j := .assetFolder) (o := folderAt ⟨"2", by decide⟩ gigs)
    (e := gigsEntry) (by decide +kernel)
  have hloud := hgigs.write (j := .assetFolder) (o := folderAt ⟨"3", by decide⟩ loud)
    (e := loudEntry) (by decide +kernel)
  exact ⟨hloud.write (j := .assetFolder) (o := folderAt ⟨"1", by decide⟩ KindIndex.reels)
    (e := reelsEntry) (by decide +kernel), by decide, by decide +kernel⟩

theorem asset_folders_are_dual_archive :
    DefinesFolders archive [tapesEntry, lateEntry, gigsEntry, loudEntry, reelsEntry] ∧
      archive.assetAncestors late = [gigsEntry, reelsEntry, tapesEntry] ∧
      archive.assetDescendants .root = [reelsEntry, loudEntry, gigsEntry, lateEntry] ∧
      archive.assetDescendants gigs = [lateEntry] ∧
      (lateEntry ∈ archive.assetDescendants gigs ↔ gigsEntry ∈ archive.assetAncestors late) :=
  ⟨definesFolders_archive, by decide +kernel,
    (definesFolders_archive.eq_assetDescendants (by decide) (by decide +kernel)).symm,
    (definesFolders_archive.eq_assetDescendants (by decide) (by decide +kernel)).symm,
    (asset_folders_are_dual definesFolders_archive).2.2.2 gigsEntry (by decide) lateEntry
      (by decide) gigs late rfl rfl⟩

end Store

end AudioProject
