import AudioProject.Files.Tree
import AudioProject.Proofs.Action
import AudioProject.Proofs.OrderedMap
import AudioProject.Proofs.Path

/-
  What the operations on a file tree change, and what they leave alone. A file is only ever put
  where no directory is, and only files are removed; so directories stay, and a path that led
  somewhere leads there still. `FileTree.Keeps P` says this, and that the contents at the places
  `P` are the same.
-/

namespace AudioProject.FileTree

/-! ## Nodes -/

theorem node?_put (t : FileTree) {l : Location} (hl : l ≠ []) (n : Node) (j : Location) :
    (t.put l n).node? j = if l = j then some n else t.node? j := by
  unfold node? put
  by_cases hj : j = []
  · subst hj
    rw [if_pos rfl, if_pos rfl, if_neg hl]
  · rw [if_neg hj, if_neg hj, OrderedMap.get?_insert]

theorem node?_drop (t : FileTree) {l : Location} (hl : l ≠ []) (j : Location) :
    (t.drop l).node? j = if l = j then none else t.node? j := by
  unfold node? drop
  by_cases hj : j = []
  · subst hj
    rw [if_pos rfl, if_pos rfl, if_neg hl]
  · rw [if_neg hj, if_neg hj, OrderedMap.get?_erase]

/-- No file stands at the top. -/
theorem ne_nil_of_node? {t : FileTree} {l : Location} (h : t.node? l ≠ some .directory) :
    l ≠ [] := by
  intro hnil
  subst hnil
  exact h rfl

theorem contentAt?_eq_some {t : FileTree} {l : Location} {b : ByteArray} :
    t.contentAt? l = some b ↔ t.node? l = some (.file b) := by
  unfold contentAt?
  split
  · next c h => simp [h]
  · next h =>
    constructor
    · intro h'
      cases h'
    · intro h'
      exact absurd h' (h b)

theorem contentAt?_put (t : FileTree) {l : Location} (hl : l ≠ []) (b : ByteArray) (j : Location) :
    (t.put l (.file b)).contentAt? j = if l = j then some b else t.contentAt? j := by
  unfold contentAt?
  rw [node?_put t hl]
  by_cases h : l = j <;> simp [h]

theorem contentAt?_drop (t : FileTree) {l : Location} (hl : l ≠ []) (j : Location) :
    (t.drop l).contentAt? j = if l = j then none else t.contentAt? j := by
  unfold contentAt?
  rw [node?_drop t hl]
  by_cases h : l = j <;> simp [h]

/-! ## Following paths -/

/-- The place that the pieces of a path lead to. -/
def walk (t : FileTree) (p : Path) : Except FileError Location :=
  p.pieces.foldlM t.stepTo (t.start p)

theorem locate_eq_ok {t : FileTree} {p : Path} {l : Location} :
    t.locate p = .ok l ↔ check p = .ok () ∧ t.walk p = .ok l := by
  unfold locate
  rw [AudioProject.bind_eq_ok]
  constructor
  · intro h
    obtain ⟨⟨⟩, hcheck, hwalk⟩ := h
    exact ⟨hcheck, hwalk⟩
  · intro h
    obtain ⟨hcheck, hwalk⟩ := h
    exact ⟨(), hcheck, hwalk⟩

theorem find_eq_ok {t : FileTree} {p : Path} {l : Location} {n : Node} :
    t.find p = .ok (l, n) ↔ t.locate p = .ok l ∧ t.node? l = some n := by
  unfold find
  rw [AudioProject.bind_eq_ok]
  constructor
  · intro h'
    obtain ⟨l', hl', h⟩ := h'
    split at h
    · next n' hn' =>
      cases h
      exact ⟨hl', hn'⟩
    · cases h
  · intro h'
    obtain ⟨hl, hn⟩ := h'
    exact ⟨l, hl, by rw [hn]⟩

theorem stepTo_eq_ok {t : FileTree} {here l : Location} {piece : String} :
    t.stepTo here piece = .ok l ↔ t.node? here = some .directory ∧
      (if Path.isSilent piece then l = here
       else if piece = ".." then l = here.dropLast
       else piece.utf8ByteSize ≤ maxNameBytes ∧ l = here ++ [piece]) := by
  unfold stepTo
  split
  · next h => simp [h]
  · next b h => simp [h]
  · next h =>
    rw [h]
    by_cases hsilent : Path.isSilent piece = true
    · simp [hsilent, eq_comm]
    by_cases hup : piece = ".."
    · subst hup
      simp [hsilent, eq_comm]
    by_cases hlong : maxNameBytes < piece.utf8ByteSize
    · simp [hsilent, hup, hlong, Nat.not_le.2 hlong]
    · simp [hsilent, hup, hlong, Nat.not_lt.1 hlong, eq_comm]

theorem stepTo_name {t : FileTree} {here l : Location} {name : String} (hname : Path.IsName name) :
    t.stepTo here name = .ok l ↔ t.node? here = some .directory ∧
      name.utf8ByteSize ≤ maxNameBytes ∧ l = here ++ [name] := by
  rw [stepTo_eq_ok, hname.not_silent]
  simp [hname.ne_dots]

theorem foldlM_append_ok {α β ε : Type} {f : β → α → Except ε β} {xs ys : List α} {b d : β} :
    (xs ++ ys).foldlM f b = .ok d ↔ ∃ c, xs.foldlM f b = .ok c ∧ ys.foldlM f c = .ok d := by
  rw [List.foldlM_append, AudioProject.bind_eq_ok]

theorem foldlM_singleton {α β ε : Type} {f : β → α → Except ε β} {x : α} {b : β} :
    [x].foldlM f b = f b x := by
  rw [List.foldlM_cons]
  cases f b x <;> rfl

/-- A walk goes on from a directory to the plain name at the end of a path. -/
theorem walk_of_pieces {t : FileTree} {p : Path} {front : List String} {name : String}
    (hpieces : p.pieces = front ++ [name]) (hname : Path.IsName name) {l : Location} :
    t.walk p = .ok l ↔ ∃ base, front.foldlM t.stepTo (t.start p) = .ok base ∧
      t.node? base = some .directory ∧ name.utf8ByteSize ≤ maxNameBytes ∧ l = base ++ [name] := by
  unfold walk
  rw [hpieces, foldlM_append_ok]
  simp only [foldlM_singleton, stepTo_name hname]

theorem walk_join {t : FileTree} {p : Path} {name : String} (hname : Path.IsName name)
    {l : Location} :
    t.walk (p.join name) = .ok l ↔ ∃ base, t.walk p = .ok base ∧
      t.node? base = some .directory ∧ name.utf8ByteSize ≤ maxNameBytes ∧ l = base ++ [name] := by
  obtain ⟨front, hjoin, hp⟩ := p.pieces_join hname.noSlash
  have hstart : t.start (p.join name) = t.start p := by
    unfold start
    rw [Path.isAbsolute_join p hname.noSlash]
  rw [walk_of_pieces hjoin hname, hstart]
  unfold walk
  rcases hp with hp | hp
  · rw [hp]
  · -- the piece behind the last slash stays where it is
    rw [hp]
    constructor
    · intro h
      obtain ⟨base, hbase, hdir, hrest⟩ := h
      refine ⟨base, foldlM_append_ok.2 ⟨base, hbase, ?_⟩, hdir, hrest⟩
      rw [foldlM_singleton, stepTo_eq_ok]
      exact ⟨hdir, rfl⟩
    · intro h
      obtain ⟨base, hbase, hrest⟩ := h
      obtain ⟨here, hhere, hstep⟩ := foldlM_append_ok.1 hbase
      rw [foldlM_singleton, stepTo_eq_ok] at hstep
      obtain ⟨-, rfl⟩ := hstep
      exact ⟨base, hhere, hrest⟩

/-! ## Single operations -/

theorem read_eq_ok {t : FileTree} {p : Path} {b : ByteArray} :
    t.read p = .ok b ↔ ∃ l, t.locate p = .ok l ∧ t.contentAt? l = some b := by
  simp only [contentAt?_eq_some, ← find_eq_ok]
  unfold read
  split
  · next l c h => simp [h]
  · next l h => simp [h]
  · next e h => simp [h]

theorem write_eq_ok {t t' : FileTree} {p : Path} {b : ByteArray} :
    t.write p b = .ok t' ↔
      ∃ l, t.locate p = .ok l ∧ t.node? l ≠ some .directory ∧ t' = t.put l (.file b) := by
  unfold write
  split
  · next e h => simp [h]
  · next l h =>
    rw [h]
    by_cases hdir : t.node? l = some .directory
    · simp [hdir]
    · rw [if_neg hdir]
      constructor
      · intro hnot
        cases hnot
        exact ⟨l, rfl, hdir, rfl⟩
      · intro h'
        obtain ⟨_, ⟨⟩, -, rfl⟩ := h'
        rfl

theorem removeFile_eq_ok {t t' : FileTree} {p : Path} :
    t.removeFile p = .ok t' ↔
      ∃ l b, t.locate p = .ok l ∧ t.node? l = some (.file b) ∧ t' = t.drop l := by
  simp only [← and_assoc, ← find_eq_ok]
  unfold removeFile
  split
  · next l b h => simp [h, eq_comm]
  · next l h => simp [h]
  · next e h => simp [h]

/-- Two trees in which the same places are directories, so that paths lead to the same places. -/
structure SameDirectories (t t' : FileTree) : Prop where
  current : t'.current = t.current
  directory : ∀ l, t'.node? l = some .directory ↔ t.node? l = some .directory

theorem SameDirectories.symm {t t' : FileTree} (h : SameDirectories t t') : SameDirectories t' t :=
  ⟨h.current.symm, fun l => (h.directory l).symm⟩

theorem SameDirectories.trans {t t' t'' : FileTree} (h : SameDirectories t t')
    (h' : SameDirectories t' t'') : SameDirectories t t'' :=
  ⟨h'.current.trans h.current, fun l => (h'.directory l).trans (h.directory l)⟩

theorem sameDirectories_put (t : FileTree) {l : Location} (h : t.node? l ≠ some .directory)
    (b : ByteArray) : SameDirectories t (t.put l (.file b)) where
  current := rfl
  directory := by
    intro j
    rw [node?_put t (ne_nil_of_node? h)]
    by_cases hj : l = j
    · subst hj
      simp [h]
    · simp [hj]

theorem sameDirectories_drop (t : FileTree) {l : Location} (h : t.node? l ≠ some .directory) :
    SameDirectories t (t.drop l) where
  current := rfl
  directory := by
    intro j
    rw [node?_drop t (ne_nil_of_node? h)]
    by_cases hj : l = j
    · subst hj
      simp [h]
    · simp [hj]

/-- Directories stay, and so do the contents at the places `P`. -/
structure Keeps (P : Location → Prop) (t t' : FileTree) : Prop where
  current : t'.current = t.current
  directory : ∀ l, t.node? l = some .directory → t'.node? l = some .directory
  content : ∀ l, P l → t'.contentAt? l = t.contentAt? l

namespace Keeps

variable {P Q : Location → Prop} {t t' t'' : FileTree}

theorem refl (P : Location → Prop) (t : FileTree) : Keeps P t t :=
  ⟨rfl, fun _ h => h, fun _ _ => rfl⟩

theorem trans (h : Keeps P t t') (h' : Keeps P t' t'') : Keeps P t t'' where
  current := h'.current.trans h.current
  directory := fun l hl => h'.directory l (h.directory l hl)
  content := fun l hl => (h'.content l hl).trans (h.content l hl)

theorem mono (hQP : ∀ l, Q l → P l) (h : Keeps P t t') : Keeps Q t t' where
  current := h.current
  directory := h.directory
  content := fun l hl => h.content l (hQP l hl)

theorem of_sameDirectories (h : SameDirectories t t')
    (hcontent : ∀ l, P l → t'.contentAt? l = t.contentAt? l) : Keeps P t t' :=
  ⟨h.current, fun l => (h.directory l).2, hcontent⟩

theorem foldlM_stepTo (h : Keeps P t t') {pieces : List String} {here l : Location}
    (hl : pieces.foldlM t.stepTo here = .ok l) : pieces.foldlM t'.stepTo here = .ok l := by
  induction pieces generalizing here with
  | nil => exact hl
  | cons piece pieces ih =>
    rw [List.foldlM_cons, AudioProject.bind_eq_ok] at hl ⊢
    obtain ⟨next, hnext, hrest⟩ := hl
    rw [stepTo_eq_ok] at hnext
    refine ⟨next, ?_, ih hrest⟩
    rw [stepTo_eq_ok]
    exact ⟨h.directory here hnext.1, hnext.2⟩

/-- A path that leads somewhere leads there still. -/
theorem walk (h : Keeps P t t') {p : Path} {l : Location} (hl : t.walk p = .ok l) :
    t'.walk p = .ok l := by
  have hstart : t'.start p = t.start p := by
    unfold start
    rw [h.current]
  unfold FileTree.walk
  rw [hstart]
  exact h.foldlM_stepTo hl

theorem locate (h : Keeps P t t') {p : Path} {l : Location} (hl : t.locate p = .ok l) :
    t'.locate p = .ok l := by
  rw [locate_eq_ok] at hl ⊢
  exact ⟨hl.1, h.walk hl.2⟩

theorem read (h : Keeps P t t') {p : Path} {l : Location} (hl : t.locate p = .ok l) (hP : P l)
    {b : ByteArray} (hb : t.read p = .ok b) : t'.read p = .ok b := by
  obtain ⟨l', hl', hcontent⟩ := read_eq_ok.1 hb
  rw [hl] at hl'
  cases hl'
  exact read_eq_ok.2 ⟨l, h.locate hl, by rw [h.content l hP, hcontent]⟩

end Keeps

theorem SameDirectories.locate {t t' : FileTree} (h : SameDirectories t t') {p : Path}
    {l : Location} : t'.locate p = .ok l ↔ t.locate p = .ok l := by
  constructor
  · intro hl
    exact (Keeps.of_sameDirectories (P := fun _ => False) h.symm (by simp)).locate hl
  · intro hl
    exact (Keeps.of_sameDirectories (P := fun _ => False) h (by simp)).locate hl

theorem keeps_put (t : FileTree) {l : Location} (h : t.node? l ≠ some .directory) (b : ByteArray) :
    Keeps (· ≠ l) t (t.put l (.file b)) := by
  refine .of_sameDirectories (sameDirectories_put t h b) ?_
  intro j hj
  rw [contentAt?_put t (ne_nil_of_node? h), if_neg (Ne.symm hj)]

theorem keeps_drop (t : FileTree) {l : Location} (h : t.node? l ≠ some .directory) :
    Keeps (· ≠ l) t (t.drop l) := by
  refine .of_sameDirectories (sameDirectories_drop t h) ?_
  intro j hj
  rw [contentAt?_drop t (ne_nil_of_node? h), if_neg (Ne.symm hj)]

/-! ## Making directories -/

theorem keeps_putDirectory (t : FileTree) {l : Location} (h : t.node? l = none) :
    Keeps (fun _ => True) t (t.put l .directory) := by
  have hl : l ≠ [] := by
    intro hsame
    subst hsame
    cases h
  refine ⟨rfl, ?_, ?_⟩
  · intro j hj
    rw [node?_put t hl]
    split
    · rfl
    · exact hj
  · intro j _
    unfold contentAt?
    rw [node?_put t hl]
    by_cases hj : l = j
    · subst hj
      simp [h]
    · simp [hj]

theorem keeps_enter (here : Location) (piece : String) (t : FileTree) :
    Keeps (fun _ => True) t ((enter here piece).after t) := by
  cases hstep : t.stepTo here piece with
  | error e =>
    rw [Action.after_of_error (t := t) (e := e) (by simp only [enter, hstep])]
    exact .refl _ t
  | ok l =>
    cases hnode : t.node? l with
    | none =>
      have henter : enter here piece t = .ok l (t.put l .directory) := by
        simp only [enter, hstep, hnode]
      rw [Action.after_of_ok henter]
      exact keeps_putDirectory t hnode
    | some n =>
      rw [Action.after_of_ok (t := t) (a := l) (by cases n <;> simp only [enter, hstep, hnode])]
      exact .refl _ t

theorem keeps_enterAll (here : Location) (pieces : List String) (t : FileTree) :
    Keeps (fun _ => True) t ((enterAll here pieces).after t) := by
  induction pieces generalizing here t with
  | nil => exact .refl _ t
  | cons piece pieces ih =>
    exact Action.after_bind (R := Keeps _) .trans (keeps_enter here piece t) fun l t' _ => ih l t'

/-- Making directories changes no contents. -/
theorem keeps_createDirs (p : Path) (t : FileTree) :
    Keeps (fun _ => True) t ((createDirs p).after t) := by
  unfold createDirs
  split
  · exact .refl _ t
  refine Action.after_bind (R := Keeps _) .trans ?_ fun _ t₁ _ => ?_
  · rw [Action.after_reading]
    exact .refl _ t
  refine Action.after_bind (R := Keeps _) .trans (.refl _ t₁) fun start t₂ _ => ?_
  refine Action.after_bind (R := Keeps _) .trans (keeps_enterAll _ _ t₂) fun l t₃ _ => ?_
  refine Action.after_bind (R := Keeps _) .trans (.refl _ t₃) fun t' t₄ _ => ?_
  split
  · exact .refl _ t₄
  · exact .refl _ t₄

/-! ## Files that stay -/

/-- The files at the places `P` stay as they are. Others may come where none was. -/
def Spares (P : Location → Prop) (t t' : FileTree) : Prop :=
  Keeps (fun l => P l ∧ t.contentAt? l ≠ none) t t'

namespace Spares

variable {P Q : Location → Prop} {t t' t'' : FileTree} {l : Location}

theorem refl (P : Location → Prop) (t : FileTree) : Spares P t t := Keeps.refl _ t

theorem trans (h : Spares P t t') (h' : Spares P t' t'') : Spares P t t'' := by
  have hnext : Keeps (fun l => P l ∧ t.contentAt? l ≠ none) t' t'' := by
    refine h'.mono ?_
    intro l hl
    refine ⟨hl.1, ?_⟩
    rw [h.content l hl]
    exact hl.2
  exact Keeps.trans h hnext

theorem mono (hQP : ∀ l, Q l → P l) (h : Spares P t t') : Spares Q t t' :=
  Keeps.mono (fun l hl => ⟨hQP l hl.1, hl.2⟩) h

theorem of_keeps (h : Keeps P t t') : Spares P t t' := h.mono fun _ hl => hl.1

theorem of_free (h : Keeps (· ≠ l) t t') (hfree : t.contentAt? l = none) : Spares P t t' := by
  refine h.mono ?_
  intro j hj hsame
  exact hj.2 (hsame ▸ hfree)

/-- What a file at such a place holds, it goes on to hold. -/
theorem content (h : Spares P t t') {b : ByteArray} (hl : P l) (hb : t.contentAt? l = some b) :
    t'.contentAt? l = some b := by
  rw [Keeps.content h l ⟨hl, by simp [hb]⟩, hb]

end Spares

end AudioProject.FileTree
