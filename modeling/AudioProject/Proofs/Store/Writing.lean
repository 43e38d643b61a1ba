import AudioProject.Proofs.Files.Tree
import AudioProject.Store.Writing

/-
  What writing a document does to the files. When it succeeds, the document stands at its place
  and its draft is gone; when it fails, only the place of the draft can have changed, and nothing
  stands there then. `writeFile_writes`, `writeFile_fails`.
-/

namespace AudioProject.Store

open FileTree

/-- The file that a document is written to first. -/
def draft (path : Path) : Path := (path.parent?.getD ⟨""⟩).join (draftName path)

theorem rename_eq_ok {t t' : FileTree} {source dest : Path} :
    t.rename source dest = .ok t' ↔ ∃ b u, t.read source = .ok b ∧ t.write dest b = .ok u ∧
      u.removeFile source = .ok t' := by
  unfold FileTree.rename
  simp only [AudioProject.bind_eq_ok]
  constructor
  · intro h'
    obtain ⟨b, hb, u, hu, h⟩ := h'
    exact ⟨b, u, hb, hu, h⟩
  · intro h'
    obtain ⟨b, u, hb, hu, h⟩ := h'
    exact ⟨b, hb, u, hu, h⟩

/-- The draft is written, so it can be removed again. -/
theorem removeFile_draft {t : FileTree} {p : Path} {l : Location} (hl : t.locate p = .ok l)
    (hdir : t.node? l ≠ some .directory) (b : ByteArray) :
    (t.put l (.file b)).removeFile p = .ok ((t.put l (.file b)).drop l) := by
  rw [removeFile_eq_ok]
  refine ⟨l, b, (sameDirectories_put t hdir b).locate.2 hl, ?_, rfl⟩
  rw [node?_put t (ne_nil_of_node? hdir), if_pos rfl]

/-- A file comes to its place by way of its draft. -/
theorem place_eq_ok_iff {draft path : Path} {b : ByteArray} {t t' : FileTree} :
    place draft path b t = .ok () t' ↔
      ∃ t₁, t.write draft b = .ok t₁ ∧ t₁.rename draft path = .ok t' := by
  constructor
  · intro h
    unfold place at h
    obtain ⟨done, t₁, hdone, h⟩ := Action.bind_eq_ok.1 h
    cases done with
    | error e =>
      obtain ⟨_, _, -, hthrow⟩ := Action.bind_eq_ok.1 h
      cases hthrow
    | ok v =>
      cases h
      obtain ⟨_, t₂, hwrite, hrename⟩ := Action.bind_eq_ok.1 (Action.outcome_eq_ok.1 hdone)
      exact ⟨t₂, Action.changing_eq_ok.1 hwrite, Action.changing_eq_ok.1 hrename⟩
  · rintro ⟨t₁, hwrite, hrename⟩
    have hboth : (Action.changing (fun t => t.write draft b) >>= fun _ =>
        Action.changing fun t => t.rename draft path) t = .ok () t' :=
      (Action.bind_of_ok (Action.changing_eq_ok (u := ()) |>.2 hwrite) _).trans
        (Action.changing_eq_ok.2 hrename)
    have hdone : (Action.outcome (Action.changing (fun t => t.write draft b) >>= fun _ =>
        Action.changing fun t => t.rename draft path) :
        Action FileTree FileError (Except FileError Unit)) t = .ok (.ok ()) t' :=
      Action.outcome_eq_ok.2 hboth
    unfold place
    rw [Action.bind_of_ok hdone]
    rfl

theorem place_eq_ok {draft path : Path} {b : ByteArray} {t t' : FileTree} {u : Unit}
    (h : place draft path b t = .ok u t') :
    ∃ ld lp, t.locate draft = .ok ld ∧ t.node? ld ≠ some .directory ∧
      t.locate path = .ok lp ∧ t.node? lp ≠ some .directory ∧
      t' = ((t.put ld (.file b)).put lp (.file b)).drop ld := by
  obtain ⟨t₁, hwrite, hrename⟩ := place_eq_ok_iff.1 h
  obtain ⟨ld, hld, hdir, rfl⟩ := write_eq_ok.1 hwrite
  obtain ⟨c, t₂, hread, hwrite₂, hremove⟩ := rename_eq_ok.1 hrename
  have hsame := sameDirectories_put t hdir b
  obtain ⟨l, hl, hc⟩ := read_eq_ok.1 hread
  rw [hsame.locate, hld] at hl
  cases hl
  rw [contentAt?_put t (ne_nil_of_node? hdir), if_pos rfl] at hc
  cases hc
  obtain ⟨lp, hlp, hpdir, rfl⟩ := write_eq_ok.1 hwrite₂
  have hsame₂ := sameDirectories_put _ hpdir b
  obtain ⟨l, c, hl, -, rfl⟩ := removeFile_eq_ok.1 hremove
  rw [hsame₂.locate, hsame.locate, hld] at hl
  cases hl
  refine ⟨ld, lp, hld, hdir, hsame.locate.1 hlp, ?_, rfl⟩
  intro hlpdir
  exact hpdir ((hsame.directory lp).2 hlpdir)

theorem place_eq_error {draft path : Path} {b : ByteArray} {t t' : FileTree} {e : FileError}
    (h : place draft path b t = .error e t') :
    t' = t ∨ ∃ ld, t.locate draft = .ok ld ∧ t.node? ld ≠ some .directory ∧
      t' = (t.put ld (.file b)).drop ld := by
  unfold place at h
  rcases Action.bind_eq_error.1 h with h | ⟨done, t₁, hdone, h⟩
  · exact absurd h Action.outcome_ne_error
  cases done with
  | ok v => cases h
  | error e' =>
    have hafter : t' = (Action.changing fun t => t.removeFile draft).after t₁ := by
      rcases Action.bind_eq_error.1 h with h | ⟨_, t₂, hout, h⟩
      · exact absurd h Action.outcome_ne_error
      · cases h
        have hafter := Action.after_of_ok hout
        rw [Action.after_outcome] at hafter
        exact hafter.symm
    rcases Action.bind_eq_error.1 (Action.outcome_eq_ok.1 hdone) with
      hwrite | ⟨_, t₂, hwrite, hrename⟩
    · -- where nothing could be written, there is nothing to remove
      obtain ⟨hwrite, rfl⟩ := Action.changing_eq_error.1 hwrite
      refine Or.inl ?_
      cases hremove : t₁.removeFile draft with
      | error e'' =>
        rw [hafter, Action.after_of_error (Action.changing_eq_error.2 ⟨hremove, rfl⟩)]
      | ok t₃ =>
        obtain ⟨l, c, hl, hc, -⟩ := removeFile_eq_ok.1 hremove
        have hdir : t₁.node? l ≠ some .directory := by
          rw [hc]
          simp
        rw [write_eq_ok.2 ⟨l, hl, hdir, rfl⟩] at hwrite
        cases hwrite
    · rw [Action.changing_eq_ok] at hwrite
      obtain ⟨-, rfl⟩ := Action.changing_eq_error.1 hrename
      obtain ⟨ld, hld, hdir, rfl⟩ := write_eq_ok.1 hwrite
      refine Or.inr ⟨ld, hld, hdir, ?_⟩
      have hremove := removeFile_draft hld hdir b
      rw [hafter, Action.after_of_ok (Action.changing_eq_ok (u := ()) |>.2 hremove)]

/-- The file system does what is asked of it: it makes the directory of a file, writes the draft
and moves it. -/
def FilesWork (path : Path) (b : ByteArray) (t t' : FileTree) : Prop :=
  ∃ t₀ t₁, createDirs (path.parent?.getD ⟨""⟩) t = .ok () t₀ ∧
    t₀.write (draft path) b = .ok t₁ ∧ t₁.rename (draft path) path = .ok t'

theorem writeFile_eq_ok_iff {path : Path} {b : ByteArray} {t t' : FileTree} :
    writeFile path b t = .ok () t' ↔ FilesWork path b t t' := by
  constructor
  · intro h
    unfold writeFile at h
    obtain ⟨_, t₀, hdirs, hplace⟩ := Action.bind_eq_ok.1 h
    rw [Action.wrapping_eq_ok] at hdirs hplace
    obtain ⟨t₁, hwrite, hrename⟩ := place_eq_ok_iff.1 hplace
    exact ⟨t₀, t₁, hdirs, hwrite, hrename⟩
  · rintro ⟨t₀, t₁, hdirs, hwrite, hrename⟩
    unfold writeFile
    rw [Action.bind_of_ok (Action.wrapping_eq_ok.2 hdirs)]
    exact Action.wrapping_eq_ok.2 (place_eq_ok_iff.2 ⟨t₁, hwrite, hrename⟩)

/-- Only the file system keeps a file from being written. -/
theorem error_of_writeFile {path : Path} {b : ByteArray} {t t' : FileTree} {e : Error}
    (h : writeFile path b t = .error e t') : ∃ p e', e = .file p e' := by
  unfold writeFile at h
  rcases Action.bind_eq_error.1 h with h | ⟨_, t₀, -, h⟩
  · obtain ⟨e', -, rfl⟩ := Action.wrapping_eq_error.1 h
    exact ⟨_, e', rfl⟩
  · obtain ⟨e', -, rfl⟩ := Action.wrapping_eq_error.1 h
    exact ⟨_, e', rfl⟩

theorem writeFile_eq_ok {path : Path} {b : ByteArray} {t t' : FileTree} {u : Unit}
    (h : writeFile path b t = .ok u t') :
    ∃ t₀ ld lp, Keeps (fun _ => True) t t₀ ∧
      t₀.locate (draft path) = .ok ld ∧ t₀.node? ld ≠ some .directory ∧
      t₀.locate path = .ok lp ∧ t₀.node? lp ≠ some .directory ∧
      t' = ((t₀.put ld (.file b)).put lp (.file b)).drop ld := by
  unfold writeFile at h
  obtain ⟨_, t₀, hdirs, hplace⟩ := Action.bind_eq_ok.1 h
  rw [Action.wrapping_eq_ok] at hdirs hplace
  obtain ⟨ld, lp, hplaced⟩ := place_eq_ok hplace
  have hkeeps := keeps_createDirs (path.parent?.getD ⟨""⟩) t
  rw [Action.after_of_ok hdirs] at hkeeps
  exact ⟨t₀, ld, lp, hkeeps, hplaced⟩

theorem writeFile_eq_error {path : Path} {b : ByteArray} {t t' : FileTree} {e : Error}
    (h : writeFile path b t = .error e t') :
    ∃ t₀, Keeps (fun _ => True) t t₀ ∧ (t' = t₀ ∨ ∃ ld, t₀.locate (draft path) = .ok ld ∧
      t₀.node? ld ≠ some .directory ∧ t' = (t₀.put ld (.file b)).drop ld) := by
  have hkeeps := keeps_createDirs (path.parent?.getD ⟨""⟩) t
  unfold writeFile at h
  rcases Action.bind_eq_error.1 h with h | ⟨_, t₀, hdirs, hplace⟩
  · obtain ⟨e', hdirs, -⟩ := Action.wrapping_eq_error.1 h
    rw [Action.after_of_error hdirs] at hkeeps
    exact ⟨t', hkeeps, Or.inl rfl⟩
  · rw [Action.wrapping_eq_ok] at hdirs
    obtain ⟨e', hplace, -⟩ := Action.wrapping_eq_error.1 hplace
    rw [Action.after_of_ok hdirs] at hkeeps
    rcases place_eq_error hplace with rfl | hdraft
    · exact ⟨t', hkeeps, Or.inl rfl⟩
    · exact ⟨t₀, hkeeps, Or.inr hdraft⟩

/-- Besides the places of a document and its draft nothing changes, and no draft is left. -/
theorem writeFile_writes {path : Path} {b : ByteArray} {t t' : FileTree} {u : Unit}
    (h : writeFile path b t = .ok u t') :
    ∃ t₀ ld lp, Keeps (fun _ => True) t t₀ ∧ t₀.locate (draft path) = .ok ld ∧
      t'.locate path = .ok lp ∧ t'.contentAt? ld = none ∧ (ld ≠ lp → t'.contentAt? lp = some b) ∧
      Keeps (fun l => l ≠ ld ∧ l ≠ lp) t t' := by
  obtain ⟨t₀, ld, lp, hdirs, hld, hddir, hlp, hpdir, rfl⟩ := writeFile_eq_ok h
  have hdnil := ne_nil_of_node? hddir
  have hpnil := ne_nil_of_node? hpdir
  have hsame := sameDirectories_put t₀ hddir b
  have hpdir₁ : (t₀.put ld (.file b)).node? lp ≠ some .directory :=
    fun hdir => hpdir ((hsame.directory lp).1 hdir)
  have hsame₁ := hsame.trans (sameDirectories_put _ hpdir₁ b)
  have hddir₁ : ((t₀.put ld (.file b)).put lp (.file b)).node? ld ≠ some .directory :=
    fun hdir => hddir ((hsame₁.directory ld).1 hdir)
  have hsame₂ := hsame₁.trans (sameDirectories_drop _ hddir₁)
  refine ⟨t₀, ld, lp, hdirs, hld, hsame₂.locate.2 hlp, ?_, ?_, ?_⟩
  · rw [contentAt?_drop _ hdnil, if_pos rfl]
  · intro hne
    rw [contentAt?_drop _ hdnil, if_neg hne, contentAt?_put _ hpnil, if_pos rfl]
  · refine (hdirs.mono fun _ _ => trivial).trans (.of_sameDirectories hsame₂ ?_)
    intro l hl
    rw [contentAt?_drop _ hdnil, if_neg (Ne.symm hl.1), contentAt?_put _ hpnil,
      if_neg (Ne.symm hl.2), contentAt?_put _ hdnil, if_neg (Ne.symm hl.1)]

/-- Where a document could not be written, at most a draft of before is gone. -/
theorem writeFile_fails {path : Path} {b : ByteArray} {t t' : FileTree} {e : Error}
    (h : writeFile path b t = .error e t') :
    Keeps (fun _ => True) t t' ∨ ∃ t₀ ld, Keeps (fun _ => True) t t₀ ∧
      t₀.locate (draft path) = .ok ld ∧ t'.contentAt? ld = none ∧ Keeps (· ≠ ld) t t' := by
  obtain ⟨t₀, hdirs, rfl | ⟨ld, hld, hddir, rfl⟩⟩ := writeFile_eq_error h
  · exact Or.inl hdirs
  have hput := keeps_put t₀ hddir b
  have hdrop := keeps_drop (t₀.put ld (.file b)) (l := ld)
    (fun hdir => hddir (((sameDirectories_put t₀ hddir b).directory ld).1 hdir))
  refine Or.inr ⟨t₀, ld, hdirs, hld, ?_, (hdirs.mono fun _ _ => trivial).trans (hput.trans hdrop)⟩
  rw [contentAt?_drop _ (ne_nil_of_node? hddir), if_pos rfl]

/-! ## Documents -/

/-- The bytes of the document of `os`. -/
def documentBytes (s : Store) (os : List Object) : ByteArray :=
  (Document.print ⟨s.model, os⟩).toUTF8

section Documents

variable {s s' : Store} {k : Kind} {o : Object} {os : List Object} {t t' : FileTree} {path : Path}
  {e : Error}

/-- What comes of a document that has a place. -/
theorem writeDocument_of_path (hpath : s.layout.objectPath? o.objectClass o.id = some path) :
    s.writeDocument (o :: os) t =
      if t.has path then .error (.alreadyExists o.id) t
      else match writeFile path (s.documentBytes (o :: os)) t with
        | .ok () t' => .ok path t'
        | .error e t' => .error e t' := by
  unfold writeDocument
  simp only [hpath]
  rw [Action.bind_of_ok (show (get : Action FileTree Error FileTree) t = .ok t t from rfl)]
  by_cases hhas : t.has path = true
  · rw [if_pos hhas, if_pos hhas]
    rfl
  · rw [if_neg hhas, if_neg hhas]
    unfold documentBytes
    show EStateM.bind _ _ _ = _
    unfold EStateM.bind
    cases writeFile path (Document.print ⟨s.model, o :: os⟩).toUTF8 t <;> rfl

theorem writeDocument_of_no_path (hpath : s.layout.objectPath? o.objectClass o.id = none) :
    s.writeDocument (o :: os) t = .error (.invalid (.noDocumentFor o.objectClass)) t := by
  unfold writeDocument
  simp only [hpath]
  rfl

theorem writeDocument_eq_ok (h : s.writeDocument (o :: os) t = .ok path t') :
    s.layout.objectPath? o.objectClass o.id = some path ∧ t.has path = false ∧
      writeFile path (s.documentBytes (o :: os)) t = .ok () t' := by
  cases hp : s.layout.objectPath? o.objectClass o.id with
  | none =>
    rw [writeDocument_of_no_path hp] at h
    cases h
  | some p =>
    rw [writeDocument_of_path hp] at h
    split at h
    · cases h
    next hhas =>
    cases hwrite : writeFile p (s.documentBytes (o :: os)) t with
    | ok u t'' =>
      rw [hwrite] at h
      cases h
      exact ⟨rfl, Bool.eq_false_iff.2 hhas, hwrite⟩
    | error e t'' =>
      rw [hwrite] at h
      cases h

/-- Why a document could not be written: its class has no documents, there is one, or the file
system failed. -/
theorem error_of_writeDocument (h : s.writeDocument (o :: os) t = .error e t') :
    (e = .invalid (.noDocumentFor o.objectClass) ∧ t' = t) ∨ (e = .alreadyExists o.id ∧ t' = t) ∨
      ∃ path, s.layout.objectPath? o.objectClass o.id = some path ∧
        t.has path = false ∧ writeFile path (s.documentBytes (o :: os)) t = .error e t' := by
  cases hp : s.layout.objectPath? o.objectClass o.id with
  | none =>
    rw [writeDocument_of_no_path hp] at h
    cases h
    exact Or.inl ⟨rfl, rfl⟩
  | some p =>
    rw [writeDocument_of_path hp] at h
    split at h
    · cases h
      exact Or.inr (Or.inl ⟨rfl, rfl⟩)
    next hhas =>
    cases hwrite : writeFile p (s.documentBytes (o :: os)) t with
    | ok u t'' =>
      rw [hwrite] at h
      cases h
    | error e' t'' =>
      rw [hwrite] at h
      cases h
      exact Or.inr (Or.inr ⟨p, rfl, Bool.eq_false_iff.2 hhas, hwrite⟩)

theorem writeDocument_eq_error (h : s.writeDocument (o :: os) t = .error e t') :
    t' = t ∨ ∃ path, s.layout.objectPath? o.objectClass o.id = some path ∧
      t.has path = false ∧ writeFile path (s.documentBytes (o :: os)) t = .error e t' := by
  rcases error_of_writeDocument h with ⟨-, rfl⟩ | ⟨-, rfl⟩ | hwrite
  · exact Or.inl rfl
  · exact Or.inl rfl
  · exact Or.inr hwrite

/-- An object that has an entry is committed as its document is written. -/
theorem commit_of_entry {e : IndexEntry} (he : IndexEntry.ofObject? k o = some e) :
    s.commit k (o :: os) t =
      match s.writeDocument (o :: os) t with
      | .ok path t' => .ok (s.insert k e, path) t'
      | .error e t' => .error e t' := by
  unfold commit
  simp only [he]
  show EStateM.bind _ _ _ = _
  unfold EStateM.bind
  cases s.writeDocument (o :: os) t <;> rfl

/-- Without an entry, nothing is committed. -/
theorem commit_of_no_entry (he : IndexEntry.ofObject? k o = none) (s : Store) (os : List Object)
    (t : FileTree) : ∃ e, s.commit k (o :: os) t = .error e t := by
  unfold commit
  simp only [he]
  exact ⟨_, rfl⟩

/-- A record is in the index once its document is written. -/
theorem commit_eq_ok (h : s.commit k (o :: os) t = .ok (s', path) t') :
    ∃ e, IndexEntry.ofObject? k o = some e ∧ s' = s.insert k e ∧
      s.writeDocument (o :: os) t = .ok path t' := by
  cases he : IndexEntry.ofObject? k o with
  | none =>
    obtain ⟨e, herror⟩ := commit_of_no_entry he s os t
    rw [herror] at h
    cases h
  | some e =>
    rw [commit_of_entry he] at h
    cases hwrite : s.writeDocument (o :: os) t with
    | ok p t₁ =>
      rw [hwrite] at h
      cases h
      exact ⟨e, rfl, rfl, rfl⟩
    | error e' t₁ =>
      rw [hwrite] at h
      cases h

theorem commit_eq_error (h : s.commit k (o :: os) t = .error e t') :
    (IndexEntry.ofObject? k o = none ∧ t' = t) ∨ s.writeDocument (o :: os) t = .error e t' := by
  cases he : IndexEntry.ofObject? k o with
  | none =>
    obtain ⟨e', herror⟩ := commit_of_no_entry he s os t
    rw [herror] at h
    cases h
    exact Or.inl ⟨rfl, rfl⟩
  | some entry =>
    rw [commit_of_entry he] at h
    cases hwrite : s.writeDocument (o :: os) t with
    | ok p t₁ =>
      rw [hwrite] at h
      cases h
    | error e' t₁ =>
      rw [hwrite] at h
      cases h
      exact Or.inr rfl

/-- A commit leaves the files alone, or does to them what writing the document does. -/
theorem after_commit (s : Store) (k : Kind) (os : List Object) (t : FileTree) :
    (s.commit k os).after t = t ∨ (s.commit k os).after t = (s.writeDocument os).after t := by
  cases os with
  | nil => exact Or.inl rfl
  | cons o os =>
    cases he : IndexEntry.ofObject? k o with
    | none =>
      obtain ⟨e, herror⟩ := commit_of_no_entry he s os t
      exact Or.inl (Action.after_of_error herror)
    | some e =>
      refine Or.inr ?_
      unfold Action.after
      rw [commit_of_entry he]
      cases s.writeDocument (o :: os) t <;> rfl

/-- A file that is not there counts as removed. -/
theorem removeDocument_eq (path : Path) (t : FileTree) :
    removeDocument path t =
      match t.removeFile path with
      | .ok t' => .ok () t'
      | .error .notFound => .ok () t
      | .error e => .error (.file path e) t := by
  unfold removeDocument
  cases hremove : t.removeFile path with
  | ok t' =>
    have hdone : (Action.outcome (Action.changing fun t => t.removeFile path) :
        Action FileTree Error (Except FileError Unit)) t = .ok (.ok ()) t' :=
      Action.outcome_eq_ok.2 (Action.changing_eq_ok.2 hremove)
    exact Action.bind_of_ok hdone _
  | error e =>
    have hdone : (Action.outcome (Action.changing fun t => t.removeFile path) :
        Action FileTree Error (Except FileError Unit)) t = .ok (.error e) t :=
      Action.outcome_eq_ok.2 (Action.changing_eq_error.2 ⟨hremove, rfl⟩)
    refine (Action.bind_of_ok hdone _).trans ?_
    cases e <;> rfl

end Documents

end AudioProject.Store
