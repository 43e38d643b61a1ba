import AudioProject.Command.Outline
import AudioProject.Proofs.Store.Placement
import Mathlib.Data.List.Permutation

/-
  The outline of a kind. A walk from the roots to their children and on prints a row for every entry
  that it comes to, and remembers nothing of where it has been (`Walks`). If it ends, its rows are
  the outline, and every entry whose parents lead up to a root is among them, indented by how many
  they are. It ends, with each of these entries once and no other, exactly if no root has come from
  below an entry which leads up to a root (`outline_prints_each_once`): of an id that comes again as
  a root the tree keeps the parent that it had, so it is printed below it a second time, or for ever
  if it is below itself.
-/

namespace AudioProject

namespace Command

open KindIndex

/-- An entry, and how far it is indented. -/
structure Row where
  depth : Nat
  entry : IndexEntry

def Row.id (r : Row) : ObjectId := r.entry.id

def Row.line (r : Row) : String := entryLine r.depth r.entry

variable {x : KindIndex} {e : IndexEntry} {id p : ObjectId} {d n : Nat} {ids above : List ObjectId}

/-! ## Children and roots -/

theorem map_id_filterMap_get? (x : KindIndex) (ids : List ObjectId) :
    (ids.filterMap x.get?).map IndexEntry.id = ids.filter x.contains := by
  induction ids with
  | nil => rfl
  | cons id ids ih =>
    cases he : x.get? id with
    | none =>
      rw [List.filterMap_cons_none he, ih, List.filter_cons_of_neg]
      rw [contains_eq, he]
      nofun
    | some e =>
      rw [List.filterMap_cons_some he, List.map_cons, ih, x.keyed id e he, List.filter_cons_of_pos]
      rw [contains_eq, he]
      rfl

theorem sortedChildren_perm (x : KindIndex) (id : ObjectId) :
    (sortedChildren x id).Perm ((x.tree.children id).filter x.contains) := by
  rw [← map_id_filterMap_get?]
  exact (List.mergeSort_perm _ _).map _

theorem mem_sortedChildren (hx : x.IsSound) :
    id ∈ sortedChildren x p ↔ x.tree.parent? id = some p := by
  rw [(sortedChildren_perm x p).mem_iff, List.mem_filter, hx.coherent.mem_iff]
  exact and_iff_left_of_imp (hx.rooted id p)

theorem nodup_sortedChildren (hx : x.IsSound) (id : ObjectId) : (sortedChildren x id).Nodup := by
  have hchildren : (x.tree.children id).Nodup := by
    refine List.Pairwise.imp (fun {a b} hlt => ?_) (hx.coherent.ascending id)
    rintro rfl
    exact String.lt_irrefl _ hlt
  exact (sortedChildren_perm x id).nodup_iff.2 (hchildren.filter _)

/-- The roots by name, where the outline begins. -/
def sortedRoots (x : KindIndex) : List ObjectId := (x.roots.mergeSort entryOrder).map IndexEntry.id

theorem sortedRoots_perm (x : KindIndex) :
    (sortedRoots x).Perm (x.roots.map IndexEntry.id) := (List.mergeSort_perm _ _).map _

theorem mem_sortedRoots : id ∈ sortedRoots x ↔ ∃ e, x.get? id = some e ∧ e.isRoot = true := by
  rw [(sortedRoots_perm x).mem_iff]
  unfold KindIndex.roots
  simp only [List.mem_map, List.mem_filter, mem_list_iff]
  constructor
  · rintro ⟨e, ⟨he, hroot⟩, rfl⟩
    exact ⟨e, he, hroot⟩
  · rintro ⟨e, he, hroot⟩
    obtain rfl := x.keyed id e he
    exact ⟨e, ⟨he, hroot⟩, rfl⟩

theorem nodup_sortedRoots (x : KindIndex) : (sortedRoots x).Nodup :=
  (sortedRoots_perm x).nodup_iff.2
    ((List.Sublist.map _ List.filter_sublist).nodup x.nodup_ids)

/-! ## Walks -/

/-- A walk over `ids` and all below them ends with these rows. -/
inductive Walks (x : KindIndex) : Nat → List ObjectId → List Row → Prop where
  | nil (d : Nat) : Walks x d [] []
  | cons {d : Nat} {id : ObjectId} {ids : List ObjectId} {e : IndexEntry} {below rest : List Row}
    (he : x.get? id = some e) (hbelow : Walks x (d + 1) (sortedChildren x id) below)
    (hrest : Walks x d ids rest) : Walks x d (id :: ids) (⟨d, e⟩ :: (below ++ rest))

variable {rows : List Row}

namespace Walks

theorem get?_row (h : Walks x d ids rows) : ∀ row ∈ rows, x.get? row.id = some row.entry := by
  induction h with
  | nil => exact nofun
  | cons he _ _ ihbelow ihrest =>
    intro row hrow
    rcases List.mem_cons.1 hrow with rfl | hrow
    · rwa [Row.id, x.keyed _ _ he]
    · exact (List.mem_append.1 hrow).elim (ihbelow row) (ihrest row)

/-- Where a walk begins there is a row for each id. -/
theorem top (h : Walks x d ids rows) (hid : id ∈ ids) (he : x.get? id = some e) :
    ⟨d, e⟩ ∈ rows := by
  induction h with
  | nil => cases hid
  | cons he' _ _ _ ihrest =>
    rcases List.mem_cons.1 hid with rfl | hid
    · obtain rfl := Option.some.inj (he.symm.trans he')
      exact List.mem_cons_self
    · exact List.mem_cons_of_mem _ (List.mem_append_right _ (ihrest hid))

/-- Below each row there are rows for the children. -/
theorem child (h : Walks x d ids rows) {row : Row} (hrow : row ∈ rows)
    (hid : id ∈ sortedChildren x row.id) (he : x.get? id = some e) :
    ⟨row.depth + 1, e⟩ ∈ rows := by
  induction h with
  | nil => cases hrow
  | cons he' hbelow _ ihbelow ihrest =>
    refine List.mem_cons_of_mem _ (List.mem_append.2 ?_)
    rcases List.mem_cons.1 hrow with rfl | hrow
    · rw [Row.id, x.keyed _ _ he'] at hid
      exact Or.inl (hbelow.top hid he)
    · exact (List.mem_append.1 hrow).imp ihbelow ihrest

/-- A walk that ends comes to all that rises. -/
theorem mem_of_rises (h : Walks x 0 (sortedRoots x) rows) (hx : x.IsPlaced) (hid : x.Rises id n)
    (he : x.get? id = some e) : ⟨n, e⟩ ∈ rows := by
  induction hid generalizing e with
  | root he' hroot => exact h.top (mem_sortedRoots.2 ⟨_, he', hroot⟩) he
  | @step id p e' n he' hp hrises ih =>
    obtain ⟨q, hq⟩ := hrises.exists_entry
    have hchild : id ∈ sortedChildren x q.id := by
      rw [x.keyed p q hq, mem_sortedChildren hx.toIsSound]
      exact hx.pointer id e' p he' hp
    exact h.child (ih hq) hchild he

/-! ### The guard of the outline -/

theorem not_self_of_acc {α : Type} {r : α → α → Prop} {a : α} (h : Acc r a) : ¬ r a a := by
  induction h with
  | intro a _ ih => exact fun haa => ih a haa haa

/-- A walk that ends goes to children, to their children and so on only finitely often. -/
theorem acc (h : Walks x d ids rows) : ∀ id ∈ ids, Acc (fun c p => c ∈ sortedChildren x p) id := by
  induction h with
  | nil => exact nofun
  | cons _ _ _ ihbelow ihrest => exact List.forall_mem_cons.2 ⟨.intro _ ihbelow, ihrest⟩

/-- A walk that ends is the outline, where the guard finds nothing. -/
theorem flatMap_branchLines (h : Walks x d ids rows) (habove : above.length = d)
    (hup : ∀ id ∈ ids, ∀ a ∈ above,
      Relation.TransGen (fun c p => c ∈ sortedChildren x p) id a) :
    ids.flatMap (branchLines x above) = rows.map Row.line := by
  induction h generalizing above with
  | nil => rfl
  | @cons d id ids e below rest he hbelow _ ihbelow ihrest =>
    subst habove
    have hnew : id ∉ above := by
      intro hmem
      have hacc : Acc (fun c p => c ∈ sortedChildren x p) id := .intro id hbelow.acc
      exact not_self_of_acc hacc.transGen (hup id List.mem_cons_self id hmem)
    have hbranch : branchLines x above id =
        entryLine above.length e :: (sortedChildren x id).flatMap (branchLines x (id :: above)) := by
      rw [branchLines]
      split
      · next hnone => cases he.symm.trans hnone
      · next e' he' =>
        obtain rfl := Option.some.inj (he.symm.trans he')
        rw [dif_neg hnew]
    rw [List.flatMap_cons, hbranch, ihbelow rfl, ihrest rfl]
    · simp [Row.line]
    · exact fun id' hid' => hup id' (List.mem_cons_of_mem _ hid')
    · intro c hc a ha
      have hchild : Relation.TransGen (fun c p => c ∈ sortedChildren x p) c id := .single hc
      rcases List.mem_cons.1 ha with rfl | ha
      · exact hchild
      · exact hchild.trans (hup id List.mem_cons_self a ha)

theorem treeLines_eq (h : Walks x 0 (sortedRoots x) rows) : treeLines x = rows.map Row.line :=
  h.flatMap_branchLines List.length_nil fun _ _ _ => nofun

/-! ### Walks where roots stay free -/

theorem rises (h : Walks x d ids rows) (hx : x.IsPlaced) (hfree : x.RootsStayFree)
    (hids : ∀ id ∈ ids, x.Rises id d) : ∀ row ∈ rows, x.Rises row.id row.depth := by
  induction h with
  | nil => exact nofun
  | @cons d id ids e below rest he _ _ ihbelow ihrest =>
    have hid : x.Rises id d := hids id List.mem_cons_self
    have hchildren : ∀ c ∈ sortedChildren x id, x.Rises c (d + 1) := fun c hc =>
      hid.child hx hfree ((mem_sortedChildren hx.toIsSound).1 hc)
    intro row hrow
    rcases List.mem_cons.1 hrow with rfl | hrow
    · rwa [Row.id, x.keyed id e he]
    · refine (List.mem_append.1 hrow).elim (ihbelow hchildren row) (ihrest (fun id' hid' => ?_) row)
      exact hids id' (List.mem_cons_of_mem _ hid')

/-- From the id of a row the tree leads up to where the walk began. -/
theorem climbs (h : Walks x d ids rows) (hx : x.IsSound) :
    ∀ row ∈ rows, ∃ n, ∃ id ∈ ids, row.depth = d + n ∧ x.climb n row.id = some id := by
  induction h with
  | nil => exact nofun
  | @cons d id ids e below rest he _ _ ihbelow ihrest =>
    intro row hrow
    rcases List.mem_cons.1 hrow with rfl | hrow
    · exact ⟨0, id, List.mem_cons_self, rfl, congrArg some (x.keyed id e he)⟩
    rcases List.mem_append.1 hrow with hrow | hrow
    · obtain ⟨n, c, hc, hdepth, hclimb⟩ := ihbelow row hrow
      refine ⟨n + 1, id, List.mem_cons_self, by omega, ?_⟩
      rw [climb, hclimb]
      exact (mem_sortedChildren hx).1 hc
    · obtain ⟨n, id', hid', hrest⟩ := ihrest row hrow
      exact ⟨n, id', List.mem_cons_of_mem _ hid', hrest⟩

/-- Two walks that begin apart have no id in common: it would lead up to both beginnings in as many
steps as it is below them. -/
theorem apart {ids' : List ObjectId} {rows' : List Row} (h : Walks x d ids rows)
    (h' : Walks x d ids' rows') (hx : x.IsPlaced) (hfree : x.RootsStayFree)
    (hids : ∀ id ∈ ids, x.Rises id d) (hids' : ∀ id ∈ ids', x.Rises id d)
    (happart : ∀ id ∈ ids, id ∉ ids') : ∀ a ∈ rows, ∀ b ∈ rows', a.id ≠ b.id := by
  intro a ha b hb hsame
  obtain ⟨m, top, htop, hm, hclimb⟩ := h.climbs hx.toIsSound a ha
  obtain ⟨n, top', htop', hn, hclimb'⟩ := h'.climbs hx.toIsSound b hb
  have harises : x.Rises a.id a.depth := h.rises hx hfree hids a ha
  have hbrises : x.Rises b.id b.depth := h'.rises hx hfree hids' b hb
  rw [hsame] at harises hclimb
  obtain rfl : m = n := by
    have := harises.unique hbrises
    omega
  obtain rfl := Option.some.inj (hclimb.symm.trans hclimb')
  exact happart top htop htop'

theorem nodup (h : Walks x d ids rows) (hx : x.IsPlaced) (hfree : x.RootsStayFree)
    (hids : ∀ id ∈ ids, x.Rises id d) (hnodup : ids.Nodup) : (rows.map Row.id).Nodup := by
  induction h with
  | nil => exact List.nodup_nil
  | @cons d id ids e below rest he hbelow hrest ihbelow ihrest =>
    obtain ⟨hnew, hnodup⟩ := List.nodup_cons.1 hnodup
    obtain ⟨hid, hids⟩ := List.forall_mem_cons.1 hids
    have hchildren : ∀ c ∈ sortedChildren x id, x.Rises c (d + 1) := fun c hc =>
      hid.child hx hfree ((mem_sortedChildren hx.toIsSound).1 hc)
    have hlower : ∀ row ∈ below, row.id ≠ id := by
      intro row hrow hsame
      obtain ⟨n, -, -, hdepth, -⟩ := hbelow.climbs hx.toIsSound row hrow
      have hrises : x.Rises row.id row.depth := hbelow.rises hx hfree hchildren row hrow
      rw [hsame] at hrises
      have := hrises.unique hid
      omega
    have hbranch : Walks x d [id] (⟨d, e⟩ :: below) := by
      simpa using Walks.cons he hbelow (Walks.nil d)
    have hapart : ∀ a ∈ Row.mk d e :: below, ∀ b ∈ rest, a.id ≠ b.id :=
      hbranch.apart hrest hx hfree (List.forall_mem_singleton.2 hid) hids
        (List.forall_mem_singleton.2 hnew)
    rw [← List.cons_append, List.map_append]
    refine List.nodup_append.2 ⟨?_, ihrest hids hnodup, ?_⟩
    · rw [List.map_cons, Row.id, x.keyed id e he]
      refine List.nodup_cons.2 ⟨fun hmem => ?_, ihbelow hchildren (nodup_sortedChildren hx.1 id)⟩
      obtain ⟨row, hrow, hsame⟩ := List.mem_map.1 hmem
      exact hlower row hrow hsame
    · intro i hi j hj
      obtain ⟨a, ha, rfl⟩ := List.mem_map.1 hi
      obtain ⟨b, hb, rfl⟩ := List.mem_map.1 hj
      exact hapart a ha b hb

end Walks

/-- Where roots stay free every walk ends: what it has come through rises by less than where it is,
so it does not come there again, and there are only so many entries. -/
theorem exists_walks (hx : x.IsPlaced) (hfree : x.RootsStayFree)
    (habove : ∀ a ∈ above, ∃ m < d, x.Rises a m) (hids : ∀ id ∈ ids, x.Rises id d) :
    ∃ rows, Walks x d ids rows := by
  induction hleft : unseen x.entries.keys above using Nat.strong_induction_on
    generalizing above d ids with
  | _ left ih =>
    subst hleft
    induction ids with
    | nil => exact ⟨[], .nil d⟩
    | cons id ids ihids =>
      obtain ⟨hid, hids⟩ := List.forall_mem_cons.1 hids
      obtain ⟨rest, hrest⟩ := ihids hids
      obtain ⟨e, he⟩ := hid.exists_entry
      have hkey : id ∈ x.entries.keys :=
        List.mem_map.2 ⟨(id, e), (x.entries.get?_eq_some_iff id e).1 he, rfl⟩
      have hnew : id ∉ above := by
        intro hmem
        obtain ⟨m, hm, hrises⟩ := habove id hmem
        exact absurd (hid.unique hrises) (by omega)
      have hup : ∀ a ∈ id :: above, ∃ m < d + 1, x.Rises a m := by
        refine List.forall_mem_cons.2 ⟨⟨d, d.lt_succ_self, hid⟩, fun a ha => ?_⟩
        obtain ⟨m, hm, hrises⟩ := habove a ha
        exact ⟨m, by omega, hrises⟩
      have hchildren : ∀ c ∈ sortedChildren x id, x.Rises c (d + 1) := fun c hc =>
        hid.child hx hfree ((mem_sortedChildren hx.toIsSound).1 hc)
      obtain ⟨below, hbelow⟩ := ih _ (unseen_cons_lt hkey hnew) hup hchildren rfl
      exact ⟨_, .cons he hbelow hrest⟩

/-! ## The outline of a project that was opened -/

/-- The walk from the roots ends, and has a row for each entry that rises and no other, once and
indented by how many its parents are. -/
def PrintsEachOnce (x : KindIndex) : Prop :=
  ∃ rows, Walks x 0 (sortedRoots x) rows ∧ (rows.map Row.id).Nodup ∧
    ∀ row, row ∈ rows ↔ x.get? row.id = some row.entry ∧ x.Rises row.id row.depth

theorem printsEachOnce_iff (hx : x.IsPlaced) : PrintsEachOnce x ↔ x.RootsStayFree := by
  constructor
  · rintro ⟨rows, hwalks, -, hrows⟩ id e p n he hroot hp hrises
    obtain ⟨q, hq⟩ := hrises.exists_entry
    have hqid : q.id = p := x.keyed p q hq
    have hparent : Row.mk n q ∈ rows := hwalks.mem_of_rises hx hrises hq
    have hchild : Row.mk (n + 1) e ∈ rows := by
      refine hwalks.child hparent ?_ he
      rw [Row.id, hqid, mem_sortedChildren hx.toIsSound]
      exact hp
    have hdeep : x.Rises id (n + 1) := by
      rw [← x.keyed id e he]
      exact ((hrows _).1 hchild).2
    exact absurd (hdeep.unique (.root he hroot)) n.succ_ne_zero
  · intro hfree
    have htop : ∀ id ∈ sortedRoots x, x.Rises id 0 := by
      intro id hid
      obtain ⟨e, he, hroot⟩ := mem_sortedRoots.1 hid
      exact .root he hroot
    obtain ⟨rows, hwalks⟩ := exists_walks hx hfree (List.forall_mem_nil _) htop
    refine ⟨rows, hwalks, hwalks.nodup hx hfree htop (nodup_sortedRoots x), fun row => ?_⟩
    constructor
    · exact fun hrow => ⟨hwalks.get?_row row hrow, hwalks.rises hx hfree htop row hrow⟩
    · exact fun ⟨he, hrises⟩ => hwalks.mem_of_rises hx hrises he

/-- The outline of the asset folders of a project that was opened has each once. Of another kind it
is what the walk from the roots comes to, if that ends, and then all that rises is in it; each entry
that rises is in it once, and no other, exactly if no root has come from below one that rises. -/
theorem outline_prints_each_once {t : FileTree} {l : Layout} {keep : Bool} {s : Store}
    (hload : Store.load t l keep = .ok s) :
    (∃ es : List IndexEntry, es.Perm (s.index .assetFolder).list ∧ (es.map IndexEntry.id).Nodup ∧
      outline s .assetFolder = es.map folderLine) ∧
    ∀ k, k ≠ .assetFolder →
      (∀ rows, Walks (s.index k) 0 (sortedRoots (s.index k)) rows →
        outline s k = rows.map Row.line ∧
        ∀ id n e, (s.index k).Rises id n → (s.index k).get? id = some e → ⟨n, e⟩ ∈ rows) ∧
      (PrintsEachOnce (s.index k) ↔ (s.index k).RootsStayFree) := by
  constructor
  · have hperm : ((s.index .assetFolder).list.mergeSort fun a b =>
        Store.pathText a ≤ Store.pathText b).Perm (s.index .assetFolder).list :=
      List.mergeSort_perm _ _
    refine ⟨_, hperm, ?_, if_pos rfl⟩
    exact (hperm.map IndexEntry.id).nodup_iff.2 (s.index .assetFolder).nodup_ids
  · intro k hk
    have hx : (s.index k).IsPlaced := isPlaced_of_load hload hk
    refine ⟨fun rows hwalks => ⟨?_, fun id n e => hwalks.mem_of_rises hx⟩, printsEachOnce_iff hx⟩
    rw [outline, if_neg hk]
    exact hwalks.treeLines_eq

open Store

theorem outline_prints_each_once_loft :
    load loftFiles loft.layout loft.keepJournals = .ok loft ∧
      PrintsEachOnce (loft.index .eventFolder) ∧
      outline loft .eventFolder = ["MasterEventFolder cues"] := by
  have hfree : (loft.index .eventFolder).RootsStayFree := by
    have hnone : ∀ e ∈ (loft.index .eventFolder).list, e.isRoot = true →
        (loft.index .eventFolder).tree.parent? e.id = none := by decide +kernel
    intro id e p n he hroot hp
    obtain rfl := (loft.index .eventFolder).keyed id e he
    rw [hnone e ((loft.index .eventFolder).mem_list_iff.2 he) hroot] at hp
    cases hp
  obtain ⟨-, hothers⟩ := outline_prints_each_once load_loftFiles
  exact ⟨load_loftFiles, (hothers .eventFolder (by decide)).2.2 hfree, by cbv⟩

/-! ### Folders that come again as roots -/

def attic : Object := { id := ⟨"attic", by decide⟩, objectClass := .eventFolder }

def silo : Object := { id := ⟨"silo", by decide⟩, objectClass := .bankFolder }

/-- The workspace has one folder below another and one below itself, and each comes again without
a parent. -/
def atticContents : Contents where
  workspace := ⟨loft.model, loftContents.workspace.objects ++
    [attic.setEdge "folder" [loft.masters.eventFolder], silo.setEdge "folder" [silo.id]]⟩
  master := loftContents.master
  documents := fun dir =>
    if dir = "EventFolder" then
      [(⟨"/p/Metadata/EventFolder/attic.xml"⟩, ⟨loft.model, [attic]⟩)]
    else if dir = "BankFolder" then
      [(⟨"/p/Metadata/BankFolder/silo.xml"⟩, ⟨loft.model, [silo]⟩)]
    else []

def atticStore : Store := { loft with indices := atticContents.indices }

def atticFiles : FileTree where
  nodes := ⟨[(["p"], .directory), (["p", "Metadata"], .directory),
    (["p", "Metadata", "Workspace.xml"],
      .file (loft.documentBytes atticContents.workspace.objects)),
    (["p", "Metadata", "Master.xml"], .file (loft.documentBytes atticContents.master.objects)),
    (["p", "Metadata", "EventFolder"], .directory),
    (["p", "Metadata", "EventFolder", "attic.xml"], .file (loft.documentBytes [attic])),
    (["p", "Metadata", "BankFolder"], .directory),
    (["p", "Metadata", "BankFolder", "silo.xml"], .file (loft.documentBytes [silo]))], by decide⟩

theorem holds_atticFiles : Holds atticFiles loft.layout atticContents where
  workspace := readRequired_of_has (by decide) (readDocument_of_contentAt? (s := loft)
    (by decide) (l := ["p", "Metadata", "Workspace.xml"]) (by decide) rfl)
  master := readRequired_of_has (by decide) (readDocument_of_contentAt? (s := loft)
    (by decide) (l := ["p", "Metadata", "Master.xml"]) (by decide) rfl)
  documents := by
    intro k dir hdir
    by_cases hevents : dir = "EventFolder"
    · subst hevents
      refine documentsIn_of_single (n := "attic.xml") (by decide) (by decide)
        (by decide) (by decide) ?_
      exact readDocument_of_contentAt? (s := loft) (by decide)
        (l := ["p", "Metadata", "EventFolder", "attic.xml"]) (by decide) rfl
    by_cases hbanks : dir = "BankFolder"
    · subst hbanks
      refine documentsIn_of_single (n := "silo.xml") (by decide) (by decide)
        (by decide) (by decide) ?_
      exact readDocument_of_contentAt? (s := loft) (by decide)
        (l := ["p", "Metadata", "BankFolder", "silo.xml"]) (by decide) rfl
    have hmissing : ∀ dir ∈ ["Asset", "Bank", "Group"],
        atticFiles.list (loft.layout.documentDir dir) = .error .notFound := by decide
    have hothers : ∀ dir ∈ k.directories, dir ≠ "EventFolder" → dir ≠ "BankFolder" →
        dir ∈ ["Asset", "Bank", "Group"] := by cases k <;> decide
    rw [documentsIn_of_missing (hmissing dir (hothers dir hdir hevents hbanks))]
    exact congrArg Except.ok ((if_neg hevents).trans (if_neg hbanks)).symm

theorem presents_attic : Presents atticContents atticStore where
  model := rfl
  masters := rfl
  indices := rfl
  masterBus := by decide
  eventFolder := by decide
  bankFolder := by decide
  assetFolder := by decide

/-- It opens, but one folder is printed as a root and once more below its old parent, and the walk
over the other, which is below itself, has no end. -/
theorem root_printed_again :
    load atticFiles atticStore.layout atticStore.keepJournals = .ok atticStore ∧
      outline atticStore .eventFolder =
        ["EventFolder attic", "MasterEventFolder cues", "  EventFolder attic"] ∧
      ¬ PrintsEachOnce (atticStore.index .eventFolder) ∧
      ¬ ∃ rows, Walks (atticStore.index .bank) 0 (sortedRoots (atticStore.index .bank)) rows := by
  have hload : load atticFiles atticStore.layout atticStore.keepJournals = .ok atticStore :=
    load_eq_ok_of_holds holds_atticFiles presents_attic
  refine ⟨hload, by cbv, fun honce => ?_, fun ⟨rows, hwalks⟩ => ?_⟩
  · have hfree : (atticStore.index .eventFolder).RootsStayFree :=
      (printsEachOnce_iff (isPlaced_of_load hload (by decide))).1 honce
    obtain ⟨e, he, hroot⟩ : ∃ e, (atticStore.index .eventFolder).get? attic.id = some e ∧
      e.isRoot = true := ⟨_, rfl, rfl⟩
    have hcues : (atticStore.index .eventFolder).Rises loft.masters.eventFolder 0 := .root rfl rfl
    exact hfree attic.id e _ 0 he hroot (by decide +kernel) hcues
  · have hroot : silo.id ∈ sortedRoots (atticStore.index .bank) := mem_sortedRoots.2 ⟨_, rfl, rfl⟩
    have hself : silo.id ∈ sortedChildren (atticStore.index .bank) silo.id :=
      (mem_sortedChildren (isPlaced_of_load hload (by decide)).toIsSound).2 (by decide +kernel)
    exact Walks.not_self_of_acc (hwalks.acc silo.id hroot) hself

end Command

end AudioProject
