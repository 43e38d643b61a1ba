import AudioProject.Journal.Files
import AudioProject.Proofs.Files.WellFormed

/-
  Keeping a journal changes one file, the journal's own, whether or not the write succeeds:
  `keeps_save`, `keeps_delete`, `keeps_close`. The tree stays well-formed.
-/

namespace AudioProject

open FileTree

variable {P : Location → Prop}

/-- What one tree keeps of another, said of the hosts they are on. -/
def Host.Keeps (P : Location → Prop) (h h' : Host) : Prop := FileTree.Keeps P h.files h'.files

theorem Host.Keeps.refl (P : Location → Prop) (h : Host) : Host.Keeps P h h :=
  FileTree.Keeps.refl P _

theorem Host.Keeps.trans {h h' h'' : Host} (hh : Host.Keeps P h h') (hh' : Host.Keeps P h' h'') :
    Host.Keeps P h h'' := FileTree.Keeps.trans hh hh'

theorem Host.keeps_onFiles {ε ε' α : Type} (wrap : ε → ε') {x : Action FileTree ε α} {h : Host}
    (hx : FileTree.Keeps P h.files (x.after h.files)) :
    Host.Keeps P h ((Host.onFiles wrap x).after h) := by
  rw [Host.onFiles, Action.after_within]
  exact hx

theorem FileTree.keeps_write {t : FileTree} {p : Path} {b : ByteArray}
    (hP : ∀ l, t.locate p = .ok l → ¬ P l) :
    FileTree.Keeps P t ((Action.changing fun t => t.write p b).after t) := by
  cases hwrite : t.write p b with
  | error e =>
    rw [Action.after_of_error (Action.changing_eq_error.2 ⟨hwrite, rfl⟩)]
    exact .refl P t
  | ok t' =>
    rw [Action.after_of_ok (Action.changing_eq_ok (u := ()) |>.2 hwrite)]
    obtain ⟨l, hl, hdir, rfl⟩ := write_eq_ok.1 hwrite
    refine (keeps_put t hdir b).mono ?_
    intro j hj hsame
    subst hsame
    exact hP j hl hj

theorem FileTree.keeps_removeFile {t : FileTree} {p : Path}
    (hP : ∀ l, t.locate p = .ok l → ¬ P l) :
    FileTree.Keeps P t ((Action.changing fun t => t.removeFile p).after t) := by
  cases hremove : t.removeFile p with
  | error e =>
    rw [Action.after_of_error (Action.changing_eq_error.2 ⟨hremove, rfl⟩)]
    exact .refl P t
  | ok t' =>
    rw [Action.after_of_ok (Action.changing_eq_ok (u := ()) |>.2 hremove)]
    obtain ⟨l, b, hl, hb, rfl⟩ := removeFile_eq_ok.1 hremove
    refine (keeps_drop t (by simp [hb])).mono ?_
    intro j hj hsame
    subst hsame
    exact hP j hl hj

namespace Journal

/-- What one can rely on at the places `P` while the journal is kept: as long as directories only
come, its path leads to none of them. -/
def Avoids (P : Location → Prop) (t : FileTree) (p : Path) : Prop :=
  ∀ t' l, FileTree.Keeps (fun _ => True) t t' → t'.locate p = .ok l → ¬ P l

theorem keeps_save {l : Layout} {j : Journal} {h : Host}
    (hP : Avoids P h.files (l.journal j.operation)) :
    Host.Keeps P h ((save l j).after h) := by
  unfold save
  refine Action.after_bind (R := Host.Keeps P) .trans (.refl P _) ?_
  intro _ _ hnot
  cases hnot
  refine Action.after_bind (R := Host.Keeps P) .trans (.refl P _) ?_
  intro hnot h₁ hset
  cases hnot
  have hfiles : h₁.files = h.files := by
    cases hset
    rfl
  split
  · refine Action.after_bind (R := Host.Keeps P) .trans
      (.refl P _) ?_
    intro _ _ hnot
    cases hnot
  · refine Action.after_bind (R := Host.Keeps P) .trans
      (Host.keeps_onFiles _ ((keeps_createDirs _ _).mono fun _ _ => trivial)) ?_
    intro _ h₂ hdirs
    refine Host.keeps_onFiles _ (keeps_write fun place hplace => ?_)
    refine hP h₂.files place ?_ hplace
    rw [← hfiles, ← Action.after_of_ok hdirs]
    exact Host.keeps_onFiles _ (keeps_createDirs _ _)

theorem keeps_delete {l : Layout} {j : Journal} {h : Host}
    (hP : Avoids P h.files (l.journal j.operation)) :
    Host.Keeps P h ((delete l j).after h) := by
  unfold delete
  refine Action.after_bind (R := Host.Keeps P) .trans (.refl P _) ?_
  intro _ _ hnot
  cases hnot
  split
  · exact Host.keeps_onFiles _ (keeps_removeFile (hP h.files · (.refl _ _)))
  · exact .refl P _

theorem keeps_close {l : Layout} {keep : Bool} {j : Journal} {h : Host}
    (hP : Avoids P h.files (l.journal j.operation)) :
    Host.Keeps P h ((close l keep j).after h) := by
  unfold close
  split
  · exact .refl P _
  split
  · exact keeps_save hP
  · exact keeps_delete hP

/-! ## Well-formed trees -/

/-- Two actions in a row leave well-formed files if each of them does. -/
theorem wellFormed_bind {ε α β : Type} {x : Action Host ε α} {f : α → Action Host ε β} {h : Host}
    (hx : (x.after h).files.WellFormed)
    (hf : ∀ a h', h'.files.WellFormed → ((f a).after h').files.WellFormed) :
    ((x >>= f).after h).files.WellFormed :=
  Action.holds_after_bind (P := fun h : Host => h.files.WellFormed) hx hf

theorem wellFormed_onFiles {ε ε' α : Type} {wrap : ε → ε'} {x : Action FileTree ε α} {h : Host}
    (hx : (x.after h.files).WellFormed) : ((Host.onFiles wrap x).after h).files.WellFormed := by
  rw [Host.onFiles, Action.after_within]
  exact hx

theorem wellFormed_save {l : Layout} {j : Journal} {h : Host} (hwell : h.files.WellFormed) :
    ((save l j).after h).files.WellFormed := by
  unfold save
  refine Action.after_bind (R := fun _ h' : Host => h'.files.WellFormed) (fun _ h' => h') hwell ?_
  intro _ _ hget
  cases hget
  refine wellFormed_bind hwell fun _ h₁ hwell₁ => ?_
  split
  · exact wellFormed_bind hwell₁ fun _ h₂ hwell₂ =>
      wellFormed_bind (wellFormed_onFiles (hwell₂.createDirs _)) fun _ h₃ hwell₃ =>
        wellFormed_onFiles (hwell₃.after_changing fun _ => hwell₃.write)
  · exact wellFormed_bind (wellFormed_onFiles (hwell₁.createDirs _)) fun _ h₂ hwell₂ =>
      wellFormed_onFiles (hwell₂.after_changing fun _ => hwell₂.write)

theorem wellFormed_delete {l : Layout} {j : Journal} {h : Host} (hwell : h.files.WellFormed) :
    ((delete l j).after h).files.WellFormed := by
  unfold delete
  refine Action.after_bind (R := fun _ h' : Host => h'.files.WellFormed) (fun _ h' => h') hwell ?_
  intro _ _ hget
  cases hget
  split
  · exact wellFormed_onFiles (hwell.after_changing fun _ => hwell.removeFile)
  · exact hwell

theorem wellFormed_close {l : Layout} {keep : Bool} {j : Journal} {h : Host}
    (hwell : h.files.WellFormed) : ((close l keep j).after h).files.WellFormed := by
  unfold close
  split
  · exact hwell
  split
  · exact wellFormed_save hwell
  · exact wellFormed_delete hwell

end Journal

end AudioProject
