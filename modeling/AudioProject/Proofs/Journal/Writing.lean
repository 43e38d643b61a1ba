import AudioProject.Proofs.Files.Making
import AudioProject.Proofs.Instantiation.Places

/-
  What one write of a journal, and one deletion, come to where the project is found. A write fails,
  and then no file has changed (`Sited.save_error`), or it succeeds, and then the file holds the
  text of the journal (`Sited.save_ok`). A deletion leaves no file (`Sited.delete`). All other files
  stay as they are, and nothing but the file comes to stand at its place.
-/

namespace AudioProject

open FileTree AudioProject.Path Instantiation

variable {l : Layout} {base place : Location} {op : String} {t t' : FileTree} {j : Journal}
  {h h' : Host}

theorem Instantiation.isName_journalNames (hop : '/' ∉ op.toList) :
    ∀ n ∈ journalNames op, IsName n := by
  simp only [journalNames, List.forall_mem_cons]
  exact ⟨isName_toolDirName, by decide, isName_append hop (by decide) (by decide), by simp⟩

namespace Journal

/-! ## Results -/

theorem save_eq (l : Layout) (j : Journal) (h : Host) : save l j h =
    if h.faults.strikes then .error (.file .simulated) { h with faults := h.faults.count }
    else match createDirs l.journals h.files with
      | .error e t => .error (.file e) { h with files := t, faults := h.faults.count }
      | .ok () t =>
        match t.write (l.journal j.operation) j.text.toUTF8 with
        | .error e => .error (.file e) { h with files := t, faults := h.faults.count }
        | .ok t' => .ok () { h with files := t', faults := h.faults.count } := by
  have hcount : (set { h with faults := h.faults.count } : Action Host Error PUnit) h =
      .ok () { h with faults := h.faults.count } := rfl
  unfold save
  rw [Action.bind_of_ok (show (get : Action Host Error Host) h = .ok h h from rfl),
    Action.bind_of_ok hcount]
  by_cases hstrikes : h.faults.strikes
  · rw [if_pos hstrikes, if_pos hstrikes]
    rfl
  · rw [if_neg hstrikes, if_neg hstrikes]
    show EStateM.bind _ _ _ = _
    unfold EStateM.bind Host.onFiles Action.within Action.changing
    dsimp only
    cases createDirs l.journals h.files with
    | error e t => rfl
    | ok u t =>
      dsimp only
      cases t.write (l.journal j.operation) j.text.toUTF8 <;> rfl

theorem save_eq_ok : save l j h = .ok () h' ↔ h.faults.strikes = false ∧
    ∃ t t', createDirs l.journals h.files = .ok () t ∧
      t.write (l.journal j.operation) j.text.toUTF8 = .ok t' ∧
      h' = { h with files := t', faults := h.faults.count } := by
  rw [save_eq]
  cases hstrikes : h.faults.strikes with
  | true => simp
  | false =>
    cases hdirs : createDirs l.journals h.files with
    | error e t => simp
    | ok u t =>
      generalize j.text.toUTF8 = b
      cases hwrite : t.write (l.journal j.operation) b with
      | error e => simp [hwrite]
      | ok t' => simp [hwrite, eq_comm]

/-- A write that fails has made directories at most. -/
theorem save_eq_error {e : Error} (hsave : save l j h = .error e h') :
    (∃ e', e = .file e') ∧ ∃ t, h' = { h with files := t, faults := h.faults.count } ∧
      (t = h.files ∨ t = (createDirs l.journals).after h.files) := by
  rw [save_eq] at hsave
  split at hsave
  · cases hsave
    exact ⟨⟨_, rfl⟩, h.files, rfl, Or.inl rfl⟩
  · cases hdirs : createDirs l.journals h.files with
    | error e' t =>
      rw [hdirs] at hsave
      cases hsave
      exact ⟨⟨_, rfl⟩, t, rfl, Or.inr (Action.after_of_error hdirs).symm⟩
    | ok u t =>
      rw [hdirs] at hsave
      dsimp only at hsave
      split at hsave
      · cases hsave
        exact ⟨⟨_, rfl⟩, t, rfl, Or.inr (Action.after_of_ok hdirs).symm⟩
      · cases hsave

/-- Besides files, a write changes the count of writes alone. -/
theorem after_save (l : Layout) (j : Journal) (h : Host) :
    (save l j).after h =
      { h with files := ((save l j).after h).files, faults := h.faults.count } := by
  cases hsave : save l j h with
  | ok _ h' =>
    obtain ⟨-, t, t', -, -, rfl⟩ := save_eq_ok.1 hsave
    rw [Action.after_of_ok hsave]
  | error e h' =>
    obtain ⟨-, t, rfl, -⟩ := save_eq_error hsave
    rw [Action.after_of_error hsave]

theorem delete_eq (l : Layout) (j : Journal) (h : Host) : delete l j h =
    if h.files.has (l.journal j.operation) then
      match h.files.removeFile (l.journal j.operation) with
      | .error e => .error (.file e) h
      | .ok t => .ok () { h with files := t }
    else .ok () h := by
  unfold delete
  rw [Action.bind_of_ok (show (get : Action Host Error Host) h = .ok h h from rfl)]
  by_cases hhas : h.files.has (l.journal j.operation)
  · rw [if_pos hhas, if_pos hhas]
    unfold Host.onFiles Action.within Action.changing
    dsimp only
    cases h.files.removeFile (l.journal j.operation) <;> rfl
  · rw [if_neg hhas, if_neg hhas]
    rfl

theorem delete_eq_error {e : Error} (hdelete : delete l j h = .error e h') : h' = h := by
  rw [delete_eq] at hdelete
  split at hdelete
  · split at hdelete
    · cases hdelete
      rfl
    · cases hdelete
  · cases hdelete

/-- A deletion changes nothing but files. -/
theorem after_delete (l : Layout) (j : Journal) (h : Host) :
    (delete l j).after h = { h with files := ((delete l j).after h).files } := by
  cases hdelete : delete l j h with
  | ok _ h' =>
    rw [Action.after_of_ok hdelete]
    rw [delete_eq] at hdelete
    split at hdelete
    · split at hdelete <;> cases hdelete
      rfl
    · cases hdelete
      rfl
  | error e h' => rw [Action.after_of_error hdelete, delete_eq_error hdelete]

/-- Only the file system keeps a journal from being closed. -/
theorem close_eq_error {keep : Bool} {e : Error} (hclose : close l keep j h = .error e h') :
    ∃ e', e = .file e' := by
  unfold close at hclose
  split at hclose
  · cases hclose
  split at hclose
  · exact (save_eq_error hclose).1
  · rw [delete_eq] at hclose
    split at hclose
    · split at hclose
      · cases hclose
        exact ⟨_, rfl⟩
      · cases hclose
    · cases hclose

/-- A journal with steps has a file to be written or deleted. -/
theorem close_of_steps (hsteps : j.steps ≠ []) (l : Layout) (keep : Bool) :
    close l keep j = if keep then j.save l else j.delete l := by
  unfold close
  rw [if_neg fun hempty => hsteps (List.isEmpty_iff.1 hempty)]

/-! ## Where the project is found -/

/-- The project is at `base`, in a tree as it is on a disk. -/
structure Sited (t : FileTree) (l : Layout) (base : Location) : Prop where
  well : t.WellFormed
  root : t.walk l.root = .ok base

/-- What stands where the journal of an operation belongs: a file with the text of this one, or
nothing. Where no path can lead there, nothing is known but that no journal was written. -/
structure Holds (t : FileTree) (l : Layout) (base : Location) (op : String) (was : Option Journal) :
    Prop where
  node : Proper l.root (journalNames op) →
    t.node? (base ++ journalNames op) = was.map fun j => .file j.text.toUTF8
  proper : was ≠ none → Proper l.root (journalNames op)

/-- The file with the text of this journal is there, or no file is. -/
structure Filed (t : FileTree) (l : Layout) (base : Location) (op : String) (was : Option Journal) :
    Prop where
  content : Proper l.root (journalNames op) →
    t.contentAt? (base ++ journalNames op) = was.map fun j => j.text.toUTF8
  proper : was ≠ none → Proper l.root (journalNames op)

theorem Holds.filed {was : Option Journal} (h : Holds t l base op was) : Filed t l base op was where
  content := by
    intro hproper
    unfold contentAt?
    rw [h.node hproper]
    cases was <;> rfl
  proper := h.proper

theorem Filed.keeps {was : Option Journal} (h : Filed t l base op was)
    (hsame : t'.contentAt? (base ++ journalNames op) = t.contentAt? (base ++ journalNames op)) :
    Filed t' l base op was :=
  ⟨fun hproper => hsame.trans (h.content hproper), h.proper⟩

theorem Holds.sameAt {was : Option Journal} (hholds : Holds t l base op was)
    (hsame : SameAt (base ++ journalNames op) t t') : Holds t' l base op was :=
  ⟨fun hproper => Eq.trans hsame (hholds.node hproper), hholds.proper⟩


/-- What a change to the journal of an operation leaves as it was: all other files, and where the
project is. -/
structure Kept (l : Layout) (base : Location) (op : String) (t t' : FileTree) : Prop where
  sited : Sited t' l base
  others : FileTree.Keeps (· ≠ base ++ journalNames op) t t'

namespace Sited

variable {P : Location → Prop}

theorem keeps (hs : Sited t l base) (hkeeps : FileTree.Keeps P t t') (hwell : t'.WellFormed) :
    Sited t' l base := ⟨hwell, hkeeps.walk hs.root⟩

theorem find_journal (hs : Sited t l base) (hop : '/' ∉ op.toList) {n : Node} :
    t.find (l.journal op) = .ok (place, n) ↔ Proper l.root (journalNames op) ∧
      place = base ++ journalNames op ∧ t.node? (base ++ journalNames op) = some n :=
  hs.well.find_descend hs.root (isName_journalNames hop)

theorem read_journal (hs : Sited t l base) (hop : '/' ∉ op.toList) {b : ByteArray} :
    t.read (l.journal op) = .ok b ↔ Proper l.root (journalNames op) ∧
      t.contentAt? (base ++ journalNames op) = some b :=
  hs.well.read_descend hs.root (isName_journalNames hop)

theorem isFile_journal (hs : Sited t l base) (hop : '/' ∉ op.toList) :
    t.isFile (l.journal op) = true ↔ Proper l.root (journalNames op) ∧
      ∃ b, t.contentAt? (base ++ journalNames op) = some b :=
  hs.well.isFile_descend hs.root (isName_journalNames hop)

/-- What is known of the file of a journal, as one finds it by its path. -/
theorem filed_none_iff (hs : Sited t l base) (hop : '/' ∉ op.toList) :
    Filed t l base op none ↔ t.isFile (l.journal op) = false := by
  rw [Bool.eq_false_iff, ne_eq, hs.isFile_journal hop]
  constructor
  · rintro hfiled ⟨hproper, b, hb⟩
    rw [hfiled.content hproper] at hb
    cases hb
  · intro hnot
    refine ⟨fun hproper => ?_, fun h => absurd rfl h⟩
    exact Option.eq_none_iff_forall_ne_some.2 fun b hb => hnot ⟨hproper, b, hb⟩

theorem read_of_filed (hs : Sited t l base) (hop : '/' ∉ op.toList)
    (hfiled : Filed t l base op (some j)) : t.read (l.journal op) = .ok j.text.toUTF8 :=
  have hproper := hfiled.proper (by simp)
  (hs.read_journal hop).2 ⟨hproper, hfiled.content hproper⟩

theorem has_journal (hs : Sited t l base) (hop : '/' ∉ op.toList) :
    t.has (l.journal op) = true ↔ Proper l.root (journalNames op) ∧
      t.node? (base ++ journalNames op) ≠ none := by
  constructor
  · intro hhas
    unfold has at hhas
    cases hfind : t.find (l.journal op) with
    | error e =>
      rw [hfind] at hhas
      cases hhas
    | ok found =>
      obtain ⟨place, n⟩ := found
      obtain ⟨hproper, -, hnode⟩ := (hs.find_journal hop).1 hfind
      exact ⟨hproper, by simp [hnode]⟩
  · rintro ⟨hproper, hnode⟩
    obtain ⟨n, hn⟩ := Option.ne_none_iff_exists'.1 hnode
    unfold has
    rw [(hs.find_journal hop).2 ⟨hproper, rfl, hn⟩]
    rfl

/-- No path leads to a journal that was not written. -/
theorem holds_none_iff (hs : Sited t l base) (hop : '/' ∉ op.toList) :
    Holds t l base op none ↔ t.has (l.journal op) = false := by
  rw [Bool.eq_false_iff, ne_eq, hs.has_journal hop]
  constructor
  · rintro hholds ⟨hproper, hnode⟩
    exact hnode (hholds.node hproper)
  · intro hnot
    refine ⟨fun hproper => ?_, fun h => absurd rfl h⟩
    by_contra hnode
    exact hnot ⟨hproper, hnode⟩

/-! ## One write -/

theorem save_ok (hs : Sited h.files l base) (hop : '/' ∉ j.operation.toList)
    (hsave : j.save l h = .ok () h') : Kept l base j.operation h.files h'.files ∧
      Holds h'.files l base j.operation (some j) := by
  have hwell : h'.files.WellFormed := by
    rw [← Action.after_of_ok hsave]
    exact wellFormed_save hs.well
  obtain ⟨-, t, t', hdirs, hwrite, rfl⟩ := save_eq_ok.1 hsave
  have hmade : FileTree.Keeps (fun _ => True) h.files t := by
    rw [← Action.after_of_ok hdirs]
    exact keeps_createDirs _ _
  obtain ⟨place, hplace, hdir, rfl⟩ := write_eq_ok.1 hwrite
  have hput := keeps_put t hdir j.text.toUTF8
  have hsited : Sited (t.put place (.file j.text.toUTF8)) l base :=
    hs.keeps ((hmade.mono fun _ _ => trivial).trans hput) hwell
  obtain rfl := eq_of_locate_journal hsited.root hop (hput.locate hplace)
  have hcontent := contentAt?_put t (ne_nil_of_node? hdir) j.text.toUTF8
    (base ++ journalNames j.operation)
  rw [if_pos rfl] at hcontent
  have hread := (hsited.read_journal hop).1
    (read_eq_ok.2 ⟨_, hput.locate hplace, hcontent⟩)
  exact ⟨⟨hsited, (hmade.mono fun _ _ => trivial).trans hput⟩,
    fun _ => contentAt?_eq_some.1 hread.2, fun _ => hread.1⟩

/-- A write that fails changes no file, and nothing comes to stand at the place of the journal. -/
theorem save_error (hs : Sited h.files l base) {e : Error}
    (hsave : j.save l h = .error e h') : Sited h'.files l base ∧
      FileTree.Keeps (fun _ => True) h.files h'.files ∧
      SameAt (base ++ journalNames j.operation) h.files h'.files := by
  have hwell : h'.files.WellFormed := by
    rw [← Action.after_of_error hsave]
    exact wellFormed_save hs.well
  obtain ⟨-, t, rfl, ht⟩ := save_eq_error hsave
  have hmade : FileTree.Keeps (fun _ => True) h.files t ∧
      SameAt (base ++ journalNames j.operation) h.files t := by
    rcases ht with rfl | rfl
    · exact ⟨.refl _ _, rfl⟩
    · have hnames : ∀ n ∈ [toolDirName, "ops"], IsName n := by decide
      refine ⟨keeps_createDirs _ _, sameAt_createDirs_descend hnames hs.root fun hprefix => ?_⟩
      have hlength := ((List.prefix_append_right_inj base).1 hprefix).length_le
      simp [journalNames] at hlength
  exact ⟨hs.keeps hmade.1 hwell, hmade⟩

/-! ## One deletion -/

/-- A deletion that succeeds leaves nothing at the place of the journal. -/
theorem delete_ok (hs : Sited h.files l base) (hop : '/' ∉ j.operation.toList)
    (hdelete : j.delete l h = .ok () h') : ∃ t, h' = { h with files := t } ∧
      Kept l base j.operation h.files t ∧ Holds t l base j.operation none := by
  rw [delete_eq] at hdelete
  split at hdelete
  · split at hdelete
    · cases hdelete
    next t hremove =>
    cases hdelete
    have hwell := hs.well.removeFile hremove
    obtain ⟨place, b, hplace, hnode, rfl⟩ := removeFile_eq_ok.1 hremove
    obtain rfl := eq_of_locate_journal hs.root hop hplace
    have hdir : h.files.node? (base ++ journalNames j.operation) ≠ some .directory := by
      simp [hnode]
    have hkeeps := keeps_drop h.files hdir
    refine ⟨_, rfl, ⟨hs.keeps hkeeps hwell, hkeeps⟩, fun _ => ?_, fun h => absurd rfl h⟩
    rw [node?_drop h.files (ne_nil_of_node? hdir), if_pos rfl]
    rfl
  next hhas =>
    cases hdelete
    exact ⟨h.files, rfl, ⟨hs, .refl _ _⟩, (hs.holds_none_iff hop).2 (by simpa using hhas)⟩

/-- The file of a journal that was written can be deleted. -/
theorem delete_filed (hs : Sited h.files l base) (hop : '/' ∉ j.operation.toList) {j' : Journal}
    (hfiled : Filed h.files l base j.operation (some j')) : ∃ h', j.delete l h = .ok () h' := by
  have hproper := hfiled.proper (by simp)
  have hnode := contentAt?_eq_some.1 (hfiled.content hproper)
  have hlocate := (find_eq_ok.1 ((hs.find_journal hop).2 ⟨hproper, rfl, hnode⟩)).1
  rw [delete_eq, (hs.has_journal hop).2 ⟨hproper, by simp [hnode]⟩, if_pos rfl,
    removeFile_eq_ok.2 ⟨_, _, hlocate, hnode, rfl⟩]
  exact ⟨_, rfl⟩

/-- Where a journal's file stands or nothing, a deletion succeeds. -/
theorem delete (hs : Sited h.files l base) (hop : '/' ∉ j.operation.toList) {was : Option Journal}
    (hholds : Holds h.files l base j.operation was) :
    ∃ t, j.delete l h = .ok () { h with files := t } ∧ Kept l base j.operation h.files t ∧
      Holds t l base j.operation none := by
  obtain ⟨h', hdelete⟩ : ∃ h', j.delete l h = .ok () h' := by
    cases was with
    | none =>
      rw [delete_eq, (hs.holds_none_iff hop).1 hholds]
      exact ⟨h, rfl⟩
    | some j' => exact hs.delete_filed hop hholds.filed
  obtain ⟨t, rfl, hkept, hnone⟩ := hs.delete_ok hop hdelete
  exact ⟨t, hdelete, hkept, hnone⟩

end Sited

end Journal

end AudioProject
