import AudioProject.Proofs.Files.Descent

/-
  Trees as they are on a disk: everything stands in a directory, under a plain name. A path leads
  to a directory or to a name in one (`WellFormed.located`), so every operation that writes, moves
  or removes files and makes directories leaves such a tree, whether it succeeds or fails.
-/

namespace AudioProject.FileTree

open AudioProject.Path

structure WellFormed (t : FileTree) : Prop where
  tree : t.IsTree
  names : ∀ l, t.node? l ≠ none → ∀ n ∈ l, IsName n

/-- A directory, or a plain name in one. -/
def Stands (t : FileTree) (l : Location) : Prop :=
  t.node? l = some .directory ∨
    ∃ here name, t.node? here = some .directory ∧ IsName name ∧ l = here ++ [name]

/-- The path that goes down from `root` can be followed as far as its text goes. -/
structure Proper (root : Path) (names : List String) : Prop where
  check : FileTree.check (root.descend names) = .ok ()
  sizes : ∀ n ∈ names, n.utf8ByteSize ≤ maxNameBytes

namespace WellFormed

variable {t t' : FileTree} {l here : Location} {p : Path}

theorem of_keys (hkeys : ∀ k ∈ t.nodes.keys, t.node? k.dropLast = some .directory)
    (hnames : ∀ k ∈ t.nodes.keys, ∀ n ∈ k, IsName n) : t.WellFormed where
  tree := isTree_of_keys hkeys
  names := by
    intro l hnode
    obtain ⟨n, hn⟩ := Option.ne_none_iff_exists'.1 hnode
    by_cases hl : l = []
    · simp [hl]
    · exact hnames l (mem_keys_of_node? hl hn)

/-! ## Where a path leads -/

theorem directory_dropLast (h : t.WellFormed) (hdir : t.node? l = some .directory) :
    t.node? l.dropLast = some .directory := by
  rcases List.eq_nil_or_concat l with rfl | ⟨front, name, rfl⟩
  · rfl
  · rw [List.concat_eq_append] at hdir ⊢
    rw [List.dropLast_concat]
    exact h.tree front name (by simp [hdir])

theorem stands_of_stepTo (h : t.WellFormed) {piece : String} (hpiece : '/' ∉ piece.toList)
    (hstep : t.stepTo here piece = .ok l) : Stands t l := by
  obtain ⟨hdir, hl⟩ := stepTo_eq_ok.1 hstep
  split at hl
  · rw [hl]
    exact Or.inl hdir
  next hsilent =>
  split at hl
  · rw [hl]
    exact Or.inl (h.directory_dropLast hdir)
  next hdots =>
  simp only [isSilent, Bool.or_eq_true, decide_eq_true_eq, not_or] at hsilent
  exact Or.inr ⟨here, piece, hdir, ⟨hpiece, hsilent.1, hsilent.2, hdots⟩, hl.2⟩

theorem located (h : t.WellFormed) (hl : t.locate p = .ok l) : Stands t l := by
  have hwalk := (locate_eq_ok.1 hl).2
  unfold FileTree.walk at hwalk
  obtain ⟨front, last, hpieces⟩ := List.eq_nil_or_concat p.pieces |>.resolve_left p.pieces_ne_nil
  rw [List.concat_eq_append] at hpieces
  have hmem : last ∈ p.pieces := hpieces ▸ List.mem_concat_self
  have hslash : '/' ∉ last.toList := not_slash_of_mem_pieces hmem
  rw [hpieces, foldlM_append_ok] at hwalk
  obtain ⟨here, -, hstep⟩ := hwalk
  rw [foldlM_singleton] at hstep
  exact h.stands_of_stepTo hslash hstep

/-! ## One change -/

/-- A new node comes where no directory is, under a plain name in a directory. -/
theorem put (h : t.WellFormed) (hl : Stands t l) (hdir : t.node? l ≠ some .directory) (n : Node) :
    (t.put l n).WellFormed := by
  have hnil := ne_nil_of_node? hdir
  obtain ⟨here, name, hhere, hname, rfl⟩ := hl.resolve_left hdir
  have hold : ∀ {j : Location}, t.node? j = some .directory →
      (t.put (here ++ [name]) n).node? j = some .directory := by
    intro j hj
    rw [node?_put t hnil, if_neg, hj]
    rintro rfl
    exact hdir hj
  constructor
  · intro j name' hnode
    rw [node?_put t hnil] at hnode
    by_cases hsame : here ++ [name] = j ++ [name']
    · obtain ⟨rfl, -⟩ := List.append_inj' hsame rfl
      exact hold hhere
    · rw [if_neg hsame] at hnode
      exact hold (h.tree j name' hnode)
  · intro j hnode m hm
    rw [node?_put t hnil] at hnode
    by_cases hsame : here ++ [name] = j
    · subst hsame
      rcases List.mem_append.1 hm with hm | hm
      · exact h.names here (by simp [hhere]) m hm
      · rwa [List.mem_singleton.1 hm]
    · rw [if_neg hsame] at hnode
      exact h.names j hnode m hm

/-- What is not a directory can go. -/
theorem drop (h : t.WellFormed) (hdir : t.node? l ≠ some .directory) : (t.drop l).WellFormed := by
  have hnil := ne_nil_of_node? hdir
  have hold : ∀ {j : Location}, (t.drop l).node? j ≠ none → t.node? j ≠ none := by
    intro j hnode
    rw [node?_drop t hnil] at hnode
    by_cases hsame : l = j
    · rw [if_pos hsame] at hnode
      exact absurd rfl hnode
    · rwa [if_neg hsame] at hnode
  constructor
  · intro j name hnode
    have hj := h.tree j name (hold hnode)
    rw [node?_drop t hnil, if_neg, hj]
    rintro rfl
    exact hdir hj
  · intro j hnode
    exact h.names j (hold hnode)

theorem write (h : t.WellFormed) {b : ByteArray} (hwrite : t.write p b = .ok t') :
    t'.WellFormed := by
  obtain ⟨l, hl, hdir, rfl⟩ := write_eq_ok.1 hwrite
  exact h.put (h.located hl) hdir _

theorem removeFile (h : t.WellFormed) (hremove : t.removeFile p = .ok t') : t'.WellFormed := by
  obtain ⟨l, b, -, hb, rfl⟩ := removeFile_eq_ok.1 hremove
  exact h.drop (by simp [hb])

theorem copy (h : t.WellFormed) {source : Path} (hcopy : t.copy source p = .ok t') :
    t'.WellFormed := by
  unfold FileTree.copy at hcopy
  split at hcopy
  · exact h.write hcopy
  · cases hcopy
  · cases hcopy

/-! ## Actions -/

/-- What a change that may fail keeps of a tree, the action keeps. -/
theorem after_changing (h : t.WellFormed) {f : FileTree → Except FileError FileTree}
    (hf : ∀ t', f t = .ok t' → t'.WellFormed) : ((Action.changing f).after t).WellFormed := by
  cases hresult : f t with
  | error e =>
    rw [Action.after_of_error (Action.changing_eq_error.2 ⟨hresult, rfl⟩)]
    exact h
  | ok t' =>
    rw [Action.after_of_ok (Action.changing_eq_ok (u := ()) |>.2 hresult)]
    exact hf t' hresult

/-- Two actions in a row leave a well-formed tree if each of them does. -/
theorem after_bind {ε α β : Type} {x : Action FileTree ε α} {f : α → Action FileTree ε β}
    (h : t.WellFormed) (hx : t.WellFormed → (x.after t).WellFormed)
    (hf : ∀ a t', t'.WellFormed → ((f a).after t').WellFormed) :
    ((x >>= f).after t).WellFormed :=
  Action.after_bind (R := fun t t' : FileTree => t.WellFormed → t'.WellFormed)
    (fun h h' ht => h' (h ht)) hx (fun a t' _ => hf a t') h

theorem enter (h : t.WellFormed) (here : Location) {piece : String} (hpiece : '/' ∉ piece.toList) :
    ((FileTree.enter here piece).after t).WellFormed := by
  cases hstep : t.stepTo here piece with
  | error e =>
    rw [Action.after_of_error (t := t) (e := e) (by simp only [FileTree.enter, hstep])]
    exact h
  | ok l =>
    cases hnode : t.node? l with
    | none =>
      have henter : FileTree.enter here piece t = .ok l (t.put l .directory) := by
        simp only [FileTree.enter, hstep, hnode]
      rw [Action.after_of_ok henter]
      exact h.put (h.stands_of_stepTo hpiece hstep) (by simp [hnode]) _
    | some n =>
      rw [Action.after_of_ok (t := t) (a := l)
        (by cases n <;> simp only [FileTree.enter, hstep, hnode])]
      exact h

theorem enterAll (h : t.WellFormed) (here : Location) {pieces : List String}
    (hpieces : ∀ s ∈ pieces, '/' ∉ s.toList) :
    ((FileTree.enterAll here pieces).after t).WellFormed := by
  induction pieces generalizing here t with
  | nil => exact h
  | cons piece pieces ih =>
    exact h.after_bind (fun h => h.enter here (hpieces piece List.mem_cons_self)) fun l t' h' =>
      ih h' l fun s hs => hpieces s (List.mem_cons_of_mem _ hs)

theorem createDirs (h : t.WellFormed) (p : Path) :
    ((FileTree.createDirs p).after t).WellFormed := by
  unfold FileTree.createDirs
  split
  · exact h
  refine h.after_bind (fun h => ?_) fun _ t₁ h₁ => ?_
  · rw [Action.after_reading]
    exact h
  refine h₁.after_bind (fun h => h) fun start t₂ h₂ => ?_
  refine h₂.after_bind (fun h => h.enterAll _ fun _ => not_slash_of_mem_pieces) fun l t₃ h₃ => ?_
  refine h₃.after_bind (fun h => h) fun t' t₄ h₄ => ?_
  split
  · exact h₄
  · exact h₄

/-! ## Names below a directory -/

variable {root : Path} {base : Location} {names : List String} {n : Node} {b : ByteArray}

/-- A path below `root` finds what stands at its place. -/
theorem find_descend (h : t.WellFormed) (hroot : t.walk root = .ok base)
    (hnames : ∀ n ∈ names, IsName n) : t.find (root.descend names) = .ok (l, n) ↔
      Proper root names ∧ l = base ++ names ∧ t.node? (base ++ names) = some n := by
  rw [find_eq_ok, locate_eq_ok, walk_descend hnames]
  constructor
  · rintro ⟨⟨hcheck, base', hbase, hdescends, rfl⟩, hnode⟩
    obtain rfl : base' = base := Except.ok.inj (hbase.symm.trans hroot)
    exact ⟨⟨hcheck, hdescends.size_le⟩, rfl, hnode⟩
  · rintro ⟨hproper, rfl, hnode⟩
    have hdescends : Descends t base names := h.tree.descends (by simp [hnode]) hproper.sizes
    exact ⟨⟨hproper.check, base, hroot, hdescends, rfl⟩, hnode⟩

theorem read_descend (h : t.WellFormed) (hroot : t.walk root = .ok base)
    (hnames : ∀ n ∈ names, IsName n) : t.read (root.descend names) = .ok b ↔
      Proper root names ∧ t.contentAt? (base ++ names) = some b := by
  rw [read_eq_ok]
  simp only [contentAt?_eq_some, ← find_eq_ok, h.find_descend hroot hnames]
  simp

theorem isFile_descend (h : t.WellFormed) (hroot : t.walk root = .ok base)
    (hnames : ∀ n ∈ names, IsName n) : t.isFile (root.descend names) = true ↔
      Proper root names ∧ ∃ b, t.contentAt? (base ++ names) = some b := by
  constructor
  · intro hfile
    unfold isFile at hfile
    split at hfile
    · next l b hfind =>
      obtain ⟨hproper, -, hnode⟩ := (h.find_descend hroot hnames).1 hfind
      exact ⟨hproper, b, contentAt?_eq_some.2 hnode⟩
    · cases hfile
  · rintro ⟨hproper, b, hb⟩
    have hfind := (h.find_descend hroot hnames).2 ⟨hproper, rfl, contentAt?_eq_some.1 hb⟩
    exact isFile_of_locate (find_eq_ok.1 hfind).1 hb

end WellFormed

end AudioProject.FileTree
