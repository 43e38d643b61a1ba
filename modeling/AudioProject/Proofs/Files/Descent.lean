import AudioProject.Proofs.Files.Tree

/-
  Plain names below a directory. A path that goes down from `root` by plain names leads to the
  place with these names behind that of `root`, if it leads anywhere (`walk_descend`). In a tree
  where everything stands in a directory, such a path leads to whatever stands at its place
  (`IsTree.locate`), so nothing is there that the path does not find.
-/

namespace AudioProject.FileTree

open AudioProject.Path

variable {t t' : FileTree} {root : Path} {base l : Location} {names : List String}

/-- From `base` down, each name is short enough and has a directory to stand in. -/
def Descends (t : FileTree) (base : Location) : List String → Prop
  | [] => True
  | n :: ns =>
    t.node? base = some .directory ∧ n.utf8ByteSize ≤ maxNameBytes ∧ Descends t (base ++ [n]) ns

theorem walk_descend (hnames : ∀ n ∈ names, IsName n) :
    t.walk (root.descend names) = .ok l ↔
      ∃ base, t.walk root = .ok base ∧ Descends t base names ∧ l = base ++ names := by
  induction names generalizing root with
  | nil =>
    show t.walk root = .ok l ↔ _
    simp [Descends, eq_comm]
  | cons n ns ih =>
    have hn := hnames n List.mem_cons_self
    have hns : ∀ m ∈ ns, IsName m := fun m hm => hnames m (List.mem_cons_of_mem _ hm)
    show t.walk ((root.join n).descend ns) = .ok l ↔ _
    rw [ih hns]
    constructor
    · intro h
      obtain ⟨_, hbase, hdescends, rfl⟩ := h
      obtain ⟨base, hroot, hdir, hsize, rfl⟩ := (walk_join hn).1 hbase
      exact ⟨base, hroot, ⟨hdir, hsize, hdescends⟩, by simp⟩
    · intro h
      obtain ⟨base, hroot, ⟨hdir, hsize, hdescends⟩, rfl⟩ := h
      exact ⟨base ++ [n], (walk_join hn).2 ⟨base, hroot, hdir, hsize, rfl⟩, hdescends, by simp⟩

/-- Where a path below `root` leads, if `root` leads to `base`. -/
theorem eq_of_locate_descend (hnames : ∀ n ∈ names, IsName n) (hroot : t.walk root = .ok base)
    (hl : t.locate (root.descend names) = .ok l) : l = base ++ names := by
  obtain ⟨base', hbase', -, rfl⟩ := (walk_descend hnames).1 (locate_eq_ok.1 hl).2
  have hbase : base' = base := Except.ok.inj (hbase'.symm.trans hroot)
  rw [hbase]

theorem Descends.size_le (h : Descends t base names) :
    ∀ n ∈ names, n.utf8ByteSize ≤ maxNameBytes := by
  induction names generalizing base with
  | nil => simp
  | cons n ns ih =>
    obtain ⟨-, hsize, hrest⟩ := h
    intro m hm
    rcases List.mem_cons.1 hm with hm | hm
    · rw [hm]
      exact hsize
    · exact ih hrest m hm

/-- Everything stands in a directory. -/
def IsTree (t : FileTree) : Prop :=
  ∀ l name, t.node? (l ++ [name]) ≠ none → t.node? l = some .directory

theorem mem_keys_of_node? {n : Node} (hne : l ≠ []) (h : t.node? l = some n) :
    l ∈ t.nodes.keys := by
  rw [node?, if_neg hne] at h
  exact (OrderedMap.mem_keys_iff t.nodes l).2 ⟨n, h⟩

theorem isTree_of_keys (h : ∀ k ∈ t.nodes.keys, t.node? k.dropLast = some .directory) :
    t.IsTree := by
  intro l name hnode
  obtain ⟨n, hn⟩ := Option.ne_none_iff_exists'.1 hnode
  have hdir := h _ (mem_keys_of_node? (by simp) hn)
  rwa [List.dropLast_concat] at hdir

namespace IsTree

/-- Above a place where something stands are directories only. -/
theorem above (h : IsTree t) (hnode : t.node? (base ++ names) ≠ none) (hne : names ≠ []) :
    t.node? base = some .directory := by
  induction names generalizing base with
  | nil => exact absurd rfl hne
  | cons n ns ih =>
    by_cases hns : ns = []
    · rw [hns] at hnode
      exact h base n hnode
    · have hnext : t.node? (base ++ [n]) = some .directory := ih (by simpa using hnode) hns
      exact h base n (by simp [hnext])

theorem descends (h : IsTree t) (hnode : t.node? (base ++ names) ≠ none)
    (hsizes : ∀ n ∈ names, n.utf8ByteSize ≤ maxNameBytes) : Descends t base names := by
  induction names generalizing base with
  | nil => trivial
  | cons n ns ih =>
    refine ⟨h.above hnode (List.cons_ne_nil _ _), hsizes n List.mem_cons_self, ?_⟩
    exact ih (by simpa using hnode) fun m hm => hsizes m (List.mem_cons_of_mem _ hm)

/-- A place that a path leads to in one tree, it leads to in another where something stands
there. -/
theorem locate (h : IsTree t) (hnames : ∀ n ∈ names, IsName n) (hroot : t.walk root = .ok base)
    (hroot' : t'.walk root = .ok base) (hl : t'.locate (root.descend names) = .ok l)
    (hnode : t.node? l ≠ none) : t.locate (root.descend names) = .ok l := by
  rw [locate_eq_ok] at hl ⊢
  obtain ⟨base', hbase', hdescends, rfl⟩ := (walk_descend hnames).1 hl.2
  have hbase : base' = base := Except.ok.inj (hbase'.symm.trans hroot')
  subst hbase
  exact ⟨hl.1, (walk_descend hnames).2 ⟨base', hroot, h.descends hnode hdescends.size_le, rfl⟩⟩

end IsTree

theorem node?_ne_none_of_contentAt? {b : ByteArray} (h : t.contentAt? l = some b) :
    t.node? l ≠ none := by
  rw [contentAt?_eq_some.1 h]
  simp

theorem has_of_locate {p : Path} (hl : t.locate p = .ok l) (hnode : t.node? l ≠ none) :
    t.has p = true := by
  obtain ⟨n, hn⟩ := Option.ne_none_iff_exists'.1 hnode
  unfold has
  rw [find_eq_ok.2 ⟨hl, hn⟩]
  rfl

theorem locate_of_has {p : Path} (h : t.has p = true) : ∃ l, t.locate p = .ok l := by
  unfold has at h
  cases hfind : t.find p with
  | error e =>
    rw [hfind] at h
    cases h
  | ok found => exact ⟨found.1, (find_eq_ok.1 hfind).1⟩

theorem isFile_of_locate {p : Path} {b : ByteArray} (hl : t.locate p = .ok l)
    (hb : t.contentAt? l = some b) : t.isFile p = true := by
  unfold isFile
  rw [find_eq_ok.2 ⟨hl, contentAt?_eq_some.1 hb⟩]

end AudioProject.FileTree
