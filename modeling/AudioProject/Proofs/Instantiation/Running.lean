import AudioProject.Proofs.Instantiation.Making

/-
  An instantiation under way notes exactly the files that it made (`Tracks`), whatever step it
  stops at. `Makes R x` says this of a part `x` of the run, and that the files it makes are as `R`
  says when it goes well; parts in a row and loops are put together with `Makes.bind` and
  `Makes.forM`. So a run that failed can be undone from its notes (`rollBack_restores`).
-/

namespace AudioProject.Instantiation

open FileTree AudioProject.Path

/-- The files of a run are those of the start and the files that the run has noted. -/
structure Tracks (s : Store) (base : Location) (t₀ : FileTree) (files : List NewFile) (c : Run) :
    Prop where
  site : Site s.layout base t₀
  adds : Adds s.layout.root base files t₀ c.host.files
  created : c.created = files.map (NewFile.path s.layout.root)
  operation : '/' ∉ c.journal.operation.toList

/-- A part of a run notes every file that it makes. When it goes well, these are as `R` says. -/
structure Makes (s : Store) (base : Location) (t₀ : FileTree)
    (R : FileTree → List NewFile → Prop) (x : Action Run Error Unit) : Prop where
  ok : ∀ {c c' files u}, Tracks s base t₀ files c → x c = .ok u c' →
    ∃ new, Tracks s base t₀ (new.reverse ++ files) c' ∧ Grows base c.host.files c'.host.files ∧
      R c'.host.files new
  error : ∀ {c c' files e}, Tracks s base t₀ files c → x c = .error e c' →
    ∃ files', Tracks s base t₀ files' c'

variable {s : Store} {base : Location} {t₀ t t' : FileTree} {files : List NewFile} {c c' : Run}
  {R S : FileTree → List NewFile → Prop}

/-! ## Putting parts together -/

/-- What is said of new files goes on to hold while other files are made. -/
def IsStable (base : Location) (R : FileTree → List NewFile → Prop) : Prop :=
  ∀ t t' new, Grows base t t' → R t new → R t' new

theorem Makes.bind {x y : Action Run Error Unit} (hx : Makes s base t₀ R x)
    (hy : Makes s base t₀ S y) (hR : IsStable base R) :
    Makes s base t₀ (fun t new => ∃ xs ys, new = xs ++ ys ∧ R t xs ∧ S t ys)
      (x >>= fun _ => y) where
  ok := by
    intro c c'' files u htracks h
    obtain ⟨_, c', hfirst, hrest⟩ := Action.bind_eq_ok.1 h
    obtain ⟨xs, htracks', hgrows, hxs⟩ := hx.ok htracks hfirst
    obtain ⟨ys, htracks'', hgrows', hys⟩ := hy.ok htracks' hrest
    refine ⟨xs ++ ys, ?_, hgrows.trans hgrows', xs, ys, rfl, hR _ _ _ hgrows' hxs, hys⟩
    rw [List.reverse_append, List.append_assoc]
    exact htracks''
  error := by
    intro c c'' files e htracks h
    rcases Action.bind_eq_error.1 h with h | ⟨_, c', hfirst, hrest⟩
    · exact hx.error htracks h
    · obtain ⟨xs, htracks', -, -⟩ := hx.ok htracks hfirst
      exact hy.error htracks' hrest

/-- The files of each round of a loop, one after another. -/
inductive Rounds {α : Type} (R : α → FileTree → List NewFile → Prop) (t : FileTree) :
    List α → List NewFile → Prop where
  | nil : Rounds R t [] []
  | cons {a : α} {as : List α} {new rest : List NewFile} (first : R a t new)
    (others : Rounds R t as rest) : Rounds R t (a :: as) (new ++ rest)

theorem Rounds.grows {α : Type} {R : α → FileTree → List NewFile → Prop} {as : List α}
    {new : List NewFile} (h : Rounds R t as new) (hR : ∀ a, IsStable base (R a))
    (hgrows : Grows base t t') : Rounds R t' as new := by
  induction h with
  | nil => exact .nil
  | cons first _ ih => exact .cons (hR _ _ _ _ hgrows first) ih

theorem Makes.forM {α : Type} {R : α → FileTree → List NewFile → Prop}
    {x : α → Action Run Error Unit} {as : List α} (hx : ∀ a ∈ as, Makes s base t₀ (R a) (x a))
    (hR : ∀ a, IsStable base (R a)) : Makes s base t₀ (fun t => Rounds R t as) (as.forM x) := by
  induction as with
  | nil =>
    constructor
    · intro c c' files u htracks h
      cases h
      exact ⟨[], htracks, .refl _ _, .nil⟩
    · intro c c' files e htracks h
      cases h
  | cons a as ih =>
    have hrest := ih fun b hb => hx b (List.mem_cons_of_mem _ hb)
    have hboth := (hx a List.mem_cons_self).bind hrest (hR a)
    constructor
    · intro c c' files u htracks h
      have hround : (x a >>= fun _ => as.forM x) c = .ok u c' := h
      obtain ⟨new, htracks', hgrows, xs, ys, rfl, hxs, hys⟩ := hboth.ok htracks hround
      exact ⟨xs ++ ys, htracks', hgrows, .cons hxs hys⟩
    · intro c c' files e htracks h
      have hround : (x a >>= fun _ => as.forM x) c = .error e c' := h
      exact hboth.error htracks hround

/-! ## Single steps -/

theorem after_append (l : Layout) (d : Journal.Deed) (c : Run) :
    (Run.append l d).after c = { c with
      journal := c.journal.record d c.host.now
      host := ((c.journal.record d c.host.now).save l).after c.host } := by
  show (Run.onHost Error.journal ((c.journal.record d c.host.now).save l)).after _ = _
  rw [Run.onHost, Action.after_within]

theorem Tracks.append (h : Tracks s base t₀ files c) (d : Journal.Deed) :
    Tracks s base t₀ files ((Run.append s.layout d).after c) ∧
      Grows base c.host.files ((Run.append s.layout d).after c).host.files := by
  rw [after_append]
  have hfound := h.adds.directories.walk h.site.found
  have hkeeps : Keeps (fun l => ¬ InJournals base l) c.host.files
      (((c.journal.record d c.host.now).save s.layout).after c.host).files :=
    Journal.keeps_save (avoids_journal hfound h.operation)
  exact ⟨⟨h.site, h.adds.keeps hkeeps, h.created, h.operation⟩, .of_keeps hkeeps⟩

theorem makes_append (d : Journal.Deed) :
    Makes s base t₀ (fun _ new => new = []) (Run.append s.layout d) where
  ok := by
    intro c c' files u htracks h
    obtain ⟨htracks', hgrows⟩ := htracks.append d
    rw [Action.after_of_ok h] at htracks' hgrows
    exact ⟨[], htracks', hgrows, rfl⟩
  error := by
    intro c c' files e htracks h
    have htracks' := (htracks.append d).1
    rw [Action.after_of_error h] at htracks'
    exact ⟨files, htracks'⟩

theorem Tracks.unchanged (h : Tracks s base t₀ files c) {t : FileTree}
    (hkeeps : Keeps (fun _ => True) c.host.files t) :
    Tracks s base t₀ files { c with host := { c.host with files := t } } :=
  ⟨h.site, h.adds.keeps (hkeeps.mono fun _ _ => trivial), h.created, h.operation⟩

/-- A run that has made a file and noted it. -/
def noted (c : Run) (path : Path) (t : FileTree) : Run :=
  { c with host := { c.host with files := t }, created := path :: c.created }

theorem Tracks.noted (h : Tracks s base t₀ files c) {f : NewFile} (hplanned : IsPlanned f.names)
    (hfree : c.host.files.contentAt? (f.place base) = none)
    (hcreates : Creates (f.path s.layout.root) (f.place base) f.content c.host.files t) :
    Tracks s base t₀ (f :: files) (noted c (f.path s.layout.root) t) where
  site := h.site
  adds := h.adds.create hplanned hfree hcreates
  created := by
    show _ :: c.created = _
    rw [h.created]
    rfl
  operation := h.operation

/-- A file was made of which `R` holds, and it was noted and journaled. -/
structure MadeFile (s : Store) (base : Location) (R : FileTree → NewFile → Prop) (f : NewFile)
    (c c' : Run) : Prop where
  planned : IsPlanned f.names
  free : c.host.files.contentAt? (f.place base) = none
  made : ∃ t d, Creates (f.path s.layout.root) (f.place base) f.content c.host.files t ∧ R t f ∧
    c' = (Run.append s.layout d).after (noted c (f.path s.layout.root) t)

theorem Tracks.made {R : FileTree → NewFile → Prop} {f : NewFile} (h : Tracks s base t₀ files c)
    (hmade : MadeFile s base R f c c') (hR : IsStable base fun t new => ∃ f, new = [f] ∧ R t f) :
    Tracks s base t₀ (f :: files) c' ∧ Grows base c.host.files c'.host.files ∧
      R c'.host.files f := by
  obtain ⟨t, d, hcreates, hRf, rfl⟩ := hmade.made
  obtain ⟨htracks, hgrows⟩ := (h.noted hmade.planned hmade.free hcreates).append d
  obtain ⟨f', hf', hRf'⟩ := hR t _ [f] hgrows ⟨f, rfl, hRf⟩
  obtain rfl := (List.cons.inj hf').1
  exact ⟨htracks, (Grows.of_creates hcreates hmade.free).trans hgrows, hRf'⟩

/-- A step that makes one file, or none when it fails early. -/
theorem makes_of_made {x : Action Run Error Unit} {R : FileTree → NewFile → Prop}
    (hR : IsStable base fun t new => ∃ f, new = [f] ∧ R t f)
    (hok : ∀ {c c' files u}, Tracks s base t₀ files c → x c = .ok u c' →
      ∃ f, MadeFile s base R f c c')
    (herror : ∀ {c c' files e}, Tracks s base t₀ files c → x c = .error e c' →
      (∃ t, Keeps (fun _ => True) c.host.files t ∧
        c' = { c with host := { c.host with files := t } }) ∨ ∃ f, MadeFile s base R f c c') :
    Makes s base t₀ (fun t new => ∃ f, new = [f] ∧ R t f) x where
  ok := by
    intro c c' files u htracks h
    obtain ⟨f, hmade⟩ := hok htracks h
    obtain ⟨htracks', hgrows, hRf⟩ := htracks.made hmade hR
    exact ⟨[f], htracks', hgrows, f, rfl, hRf⟩
  error := by
    intro c c' files e htracks h
    rcases herror htracks h with ⟨t, hkeeps, rfl⟩ | ⟨f, hmade⟩
    · exact ⟨files, htracks.unchanged hkeeps⟩
    · exact ⟨f :: files, (htracks.made hmade hR).1⟩

/-! ## Documents -/

theorem writeObjects_eq_ok {k : ObjectClass} {id : ObjectId} {os : List Object} {u : Unit}
    (h : writeObjects s k id os c = .ok u c') :
    ∃ path t, s.writeDocument os c.host.files = .ok path t ∧
      c' = (Run.append s.layout (.objectWrite k.name id path)).after (noted c path t) := by
  unfold writeObjects at h
  obtain ⟨path, c₁, hwrite, hrest⟩ := Action.bind_eq_ok.1 h
  obtain ⟨host, hhost, rfl⟩ := Action.within_eq_ok.1 hwrite
  obtain ⟨t, ht, rfl⟩ := Action.within_eq_ok.1 hhost
  obtain ⟨_, c₂, hnote, happend⟩ := Action.bind_eq_ok.1 hrest
  cases hnote
  exact ⟨path, t, ht, (Action.after_of_ok happend).symm⟩

theorem writeObjects_eq_error {k : ObjectClass} {id : ObjectId} {os : List Object} {e : Error}
    (h : writeObjects s k id os c = .error e c') :
    (∃ e' t, s.writeDocument os c.host.files = .error e' t ∧
      c' = { c with host := { c.host with files := t } }) ∨
    ∃ path t, s.writeDocument os c.host.files = .ok path t ∧
      c' = (Run.append s.layout (.objectWrite k.name id path)).after (noted c path t) := by
  unfold writeObjects at h
  rcases Action.bind_eq_error.1 h with h | ⟨path, c₁, hwrite, hrest⟩
  · obtain ⟨e', host, hhost, rfl, rfl⟩ := Action.within_eq_error.1 h
    obtain ⟨e'', t, ht, -, rfl⟩ := Action.within_eq_error.1 hhost
    exact Or.inl ⟨e'', t, ht, rfl⟩
  obtain ⟨host, hhost, rfl⟩ := Action.within_eq_ok.1 hwrite
  obtain ⟨t, ht, rfl⟩ := Action.within_eq_ok.1 hhost
  rcases Action.bind_eq_error.1 hrest with h | ⟨_, c₂, hnote, happend⟩
  · cases h
  cases hnote
  exact Or.inr ⟨path, t, ht, (Action.after_of_error happend).symm⟩

/-- The new file is the document of `os`. -/
def IsDocument (s : Store) (os : List Object) (f : NewFile) : Prop :=
  ∃ o rest dir, os = o :: rest ∧ o.objectClass.directory? = some dir ∧ f = documentFile s dir o rest

theorem madeFile_document (h : Tracks s base t₀ files c) {os : List Object} {path : Path}
    (hwrite : s.writeDocument os c.host.files = .ok path t) (d : Journal.Deed) :
    ∃ f, MadeFile s base (fun _ f => IsDocument s os f) f c
      ((Run.append s.layout d).after (noted c path t)) := by
  cases os with
  | nil =>
    unfold Store.writeDocument at hwrite
    cases hwrite
  | cons o os =>
    obtain ⟨dir, hclass, hpath, hplanned, hfree, hcreates⟩ :=
      creates_writeDocument h.adds h.site hwrite
    rw [hpath] at hcreates ⊢
    exact ⟨documentFile s dir o os, hplanned, hfree, t, d, hcreates,
      ⟨o, os, dir, rfl, hclass, rfl⟩, rfl⟩

theorem makes_writeObjects (k : ObjectClass) (id : ObjectId) (os : List Object) :
    Makes s base t₀ (fun _ new => ∃ f, new = [f] ∧ IsDocument s os f)
      (writeObjects s k id os) := by
  refine makes_of_made (fun _ _ _ _ h => h) ?_ ?_
  · intro c c' files u htracks h
    obtain ⟨path, t, hwrite, rfl⟩ := writeObjects_eq_ok h
    exact madeFile_document htracks hwrite _
  · intro c c' files e htracks h
    rcases writeObjects_eq_error h with ⟨e', t, hwrite, rfl⟩ | ⟨path, t, hwrite, rfl⟩
    · exact Or.inl ⟨t, keeps_writeDocument_error htracks.adds htracks.site hwrite, rfl⟩
    · exact Or.inr (madeFile_document htracks hwrite _)

/-! ## Media -/

theorem copyMedia_of_reuse {l : Layout} {p : PlannedCopy} (h : p.reuse = true) :
    copyMedia l p = pure () := by
  unfold copyMedia
  rw [h]
  rfl

theorem copyMedia_of_new {l : Layout} {p : PlannedCopy} (h : p.reuse = false) (c : Run) :
    copyMedia l p c =
      if c.host.files.has p.dest then .error (.mediaConflict p.dest) c
      else (Run.onHost id (Host.onFiles (Error.mediaCopy p.source p.dest)
          (copyFile p.source p.dest)) >>= fun _ =>
        Run.note p.dest >>= fun _ => Run.append l (.mediaCopy p.source p.dest)) c := by
  unfold copyMedia
  rw [h]
  show (if c.host.files.has p.dest then _ else _ : Action Run Error Unit) c = _
  split <;> rfl

theorem copyMedia_eq_ok {l : Layout} {p : PlannedCopy} (hreuse : p.reuse = false) {u : Unit}
    (h : copyMedia l p c = .ok u c') :
    c.host.files.has p.dest = false ∧
      ∃ t, copyFile p.source p.dest c.host.files = .ok () t ∧
        c' = (Run.append l (.mediaCopy p.source p.dest)).after (noted c p.dest t) := by
  rw [copyMedia_of_new hreuse] at h
  cases hhas : c.host.files.has p.dest with
  | true =>
    rw [hhas, if_pos rfl] at h
    cases h
  | false =>
    rw [hhas, if_neg (by simp)] at h
    obtain ⟨_, c₁, hcopy, hrest⟩ := Action.bind_eq_ok.1 h
    obtain ⟨host, hhost, rfl⟩ := Action.within_eq_ok.1 hcopy
    obtain ⟨t, ht, rfl⟩ := Action.within_eq_ok.1 hhost
    obtain ⟨_, c₂, hnote, happend⟩ := Action.bind_eq_ok.1 hrest
    cases hnote
    exact ⟨rfl, t, ht, (Action.after_of_ok happend).symm⟩

theorem copyMedia_eq_error {l : Layout} {p : PlannedCopy} (hreuse : p.reuse = false) {e : Error}
    (h : copyMedia l p c = .error e c') :
    c' = c ∨ c.host.files.has p.dest = false ∧
      ((∃ e' t, copyFile p.source p.dest c.host.files = .error e' t ∧
        c' = { c with host := { c.host with files := t } }) ∨
      ∃ t, copyFile p.source p.dest c.host.files = .ok () t ∧
        c' = (Run.append l (.mediaCopy p.source p.dest)).after (noted c p.dest t)) := by
  rw [copyMedia_of_new hreuse] at h
  cases hhas : c.host.files.has p.dest with
  | true =>
    rw [hhas, if_pos rfl] at h
    cases h
    exact Or.inl rfl
  | false =>
    rw [hhas, if_neg (by simp)] at h
    refine Or.inr ⟨rfl, ?_⟩
    rcases Action.bind_eq_error.1 h with h | ⟨_, c₁, hcopy, hrest⟩
    · obtain ⟨e', host, hhost, -, rfl⟩ := Action.within_eq_error.1 h
      obtain ⟨e'', t, ht, -, rfl⟩ := Action.within_eq_error.1 hhost
      exact Or.inl ⟨e'', t, ht, rfl⟩
    obtain ⟨host, hhost, rfl⟩ := Action.within_eq_ok.1 hcopy
    obtain ⟨t, ht, rfl⟩ := Action.within_eq_ok.1 hhost
    rcases Action.bind_eq_error.1 hrest with h | ⟨_, c₂, hnote, happend⟩
    · cases h
    cases hnote
    exact Or.inr ⟨t, ht, (Action.after_of_error happend).symm⟩

/-- The new file is the copy that was planned. -/
def IsCopy (s : Store) (base : Location) (p : PlannedCopy) (t : FileTree) (f : NewFile) : Prop :=
  f.path s.layout.root = p.dest ∧ HoldsSource base p.source t f

/-- Media that are reused are not copied. -/
def IsCopied (s : Store) (base : Location) (p : PlannedCopy) (t : FileTree) (new : List NewFile) :
    Prop :=
  if p.reuse then new = [] else ∃ f, new = [f] ∧ IsCopy s base p t f

/-- A place that media may go to. -/
def IsMediaPath (s : Store) (dest : Path) : Prop :=
  ∃ names, dest = s.layout.root.descend names ∧ IsPlanned names

theorem isStable_copy (p : PlannedCopy) :
    IsStable base fun t new => ∃ f, new = [f] ∧ IsCopy s base p t f := by
  intro t t' new hgrows h
  obtain ⟨f, hf, hpath, hsource⟩ := h
  exact ⟨f, hf, hpath, hsource.grows hgrows⟩

theorem isStable_copied (p : PlannedCopy) : IsStable base (IsCopied s base p) := by
  intro t t' new hgrows h
  unfold IsCopied at h ⊢
  split
  · next hreuse =>
    rw [if_pos hreuse] at h
    exact h
  · next hreuse =>
    rw [if_neg hreuse] at h
    exact isStable_copy p t t' new hgrows h

theorem madeFile_copy (h : Tracks s base t₀ files c) {p : PlannedCopy}
    (hdest : IsMediaPath s p.dest) (hhas : c.host.files.has p.dest = false) {u : Unit}
    (hcopy : copyFile p.source p.dest c.host.files = .ok u t) (d : Journal.Deed) :
    ∃ f, MadeFile s base (IsCopy s base p) f c
      ((Run.append s.layout d).after (noted c p.dest t)) := by
  obtain ⟨names, hnames, hplanned⟩ := hdest
  rw [hnames] at hhas hcopy
  obtain ⟨b, hfree, hcreates, hsource⟩ := creates_copyFile h.adds h.site hplanned hhas hcopy
  refine ⟨⟨names, b⟩, hplanned, hfree, t, d, hcreates, ⟨hnames.symm, hsource⟩, ?_⟩
  rw [hnames]
  rfl

theorem makes_copyMedia {p : PlannedCopy} (hdest : IsMediaPath s p.dest) :
    Makes s base t₀ (IsCopied s base p) (copyMedia s.layout p) := by
  cases hreuse : p.reuse with
  | true =>
    rw [copyMedia_of_reuse hreuse]
    constructor
    · intro c c' files u htracks h
      cases h
      refine ⟨[], htracks, .refl _ _, ?_⟩
      unfold IsCopied
      rw [if_pos hreuse]
    · intro c c' files e htracks h
      cases h
  | false =>
    have hR : IsCopied s base p = fun t new => ∃ f, new = [f] ∧ IsCopy s base p t f := by
      unfold IsCopied
      simp only [hreuse, Bool.false_eq_true, if_false]
    rw [hR]
    refine makes_of_made (isStable_copy p) ?_ ?_
    · intro c c' files u htracks h
      obtain ⟨hhas, t, hcopy, rfl⟩ := copyMedia_eq_ok hreuse h
      exact madeFile_copy htracks hdest hhas hcopy _
    · intro c c' files e htracks h
      rcases copyMedia_eq_error hreuse h with rfl | ⟨hhas, ⟨e', t, hcopy, rfl⟩ | ⟨t, hcopy, rfl⟩⟩
      · exact Or.inl ⟨c'.host.files, .refl _ _, rfl⟩
      · obtain ⟨names, hnames, hplanned⟩ := hdest
        rw [hnames] at hhas hcopy
        exact Or.inl ⟨t, keeps_copyFile_error htracks.adds htracks.site hplanned hhas hcopy, rfl⟩
      · exact Or.inr (madeFile_copy htracks hdest hhas hcopy _)

/-! ## The whole run -/

/-- The new files of a plan: the copies, a document for each audio file, and that of the event. -/
structure Carries (s : Store) (base : Location) (p : Plan) (t : FileTree)
    (copies audio : List NewFile) (event : NewFile) : Prop where
  copies : Rounds (IsCopied s base) t p.copies copies
  audio : Rounds (fun o _ new => ∃ f, new = [f] ∧ IsDocument s [o] f) t p.audioFiles audio
  event : IsDocument s p.event.objects event

theorem Makes.mono {x : Action Run Error Unit} (h : Makes s base t₀ R x)
    (hRS : ∀ t new, R t new → S t new) : Makes s base t₀ S x where
  ok := by
    intro c c' files u htracks hx
    obtain ⟨new, htracks', hgrows, hnew⟩ := h.ok htracks hx
    exact ⟨new, htracks', hgrows, hRS _ _ hnew⟩
  error := h.error

theorem makes_execute {p : Plan} (hdest : ∀ m ∈ p.copies, IsMediaPath s m.dest) :
    Makes s base t₀ (fun t new => ∃ copies audio event, new = copies ++ audio ++ [event] ∧
      Carries s base p t copies audio event) (execute s p) := by
  have hcopies : Makes s base t₀ (fun t => Rounds (IsCopied s base) t p.copies)
      (p.copies.forM (copyMedia s.layout)) :=
    Makes.forM (fun m hm => makes_copyMedia (hdest m hm)) isStable_copied
  have haudio : Makes s base t₀
      (fun t => Rounds (fun o _ new => ∃ f, new = [f] ∧ IsDocument s [o] f) t p.audioFiles)
      (p.audioFiles.forM fun o => writeObjects s o.objectClass o.id [o]) :=
    Makes.forM (fun o _ => makes_writeObjects o.objectClass o.id [o]) fun _ _ _ _ _ h => h
  have hevent : Makes s base t₀ (fun _ new => ∃ f, new = [f] ∧ IsDocument s p.event.objects f)
      (writeObjects s .event p.eventId p.event.objects) := makes_writeObjects _ _ _
  have hmark : Makes s base t₀ (fun _ new => new = [])
      (Run.append s.layout (.checkpoint "media")) := makes_append _
  have hdocuments := haudio.bind hevent fun _ _ _ hgrows h => h.grows (fun _ _ _ _ _ h => h) hgrows
  have hlast := hmark.bind hdocuments fun _ _ _ _ h => h
  refine (hcopies.bind hlast fun _ _ _ hgrows h => h.grows isStable_copied hgrows).mono ?_
  intro t _ h'
  obtain ⟨copies, _, rfl, hcopied, _, _, rfl, rfl, audio, _, rfl, haudio', event, rfl, hevent'⟩ := h'
  exact ⟨copies, audio, event, by simp, hcopied, haudio', hevent'⟩

/-- The host without the files that a run has noted. -/
def Run.cleared (c : Run) : Host := { c.host with files := removeAll c.created c.host.files }

theorem rollBack_eq (s : Store) (c : Run) : rollBack s c =
    (if s.keepJournals then (c.journal.finish .rolledBack c.host.now).save s.layout
      else (c.journal.finish .rolledBack c.host.now).delete s.layout).after c.cleared := by
  unfold rollBack Run.cleared Action.after
  dsimp only
  generalize (if s.keepJournals then (c.journal.finish .rolledBack c.host.now).save s.layout
    else (c.journal.finish .rolledBack c.host.now).delete s.layout)
      { c.host with files := removeAll c.created c.host.files } = result
  cases result <;> rfl

theorem conclude_eq (s : Store) (c : Run) : conclude s c =
    ((c.journal.finish .committed c.host.now).close s.layout s.keepJournals).after c.host := by
  unfold conclude Action.after
  generalize (c.journal.finish .committed c.host.now).close s.layout s.keepJournals c.host = result
  cases result <;> rfl

/-- Undoing a run that failed brings every file outside the journals back. -/
theorem rollBack_restores (h : Tracks s base t₀ files c) {l : Location}
    (hl : ¬ InJournals base l) : (rollBack s c).files.contentAt? l = t₀.contentAt? l := by
  have hremoved := h.adds.removeAll
  rw [← h.created] at hremoved
  have hfound := hremoved.directories.walk h.site.found
  have havoids : Journal.Avoids (fun l => ¬ InJournals base l) c.cleared.files
      (s.layout.journal c.journal.operation) := avoids_journal hfound h.operation
  have hkeeps : Keeps (fun l => ¬ InJournals base l) c.cleared.files (rollBack s c).files := by
    rw [rollBack_eq]
    split
    · exact Journal.keeps_save havoids
    · exact Journal.keeps_delete havoids
  exact (hremoved.keeps hkeeps).others l hl (by simp)

/-- Closing the journal of a run changes no other file. -/
theorem adds_conclude (h : Tracks s base t₀ files c) :
    Adds s.layout.root base files t₀ (conclude s c).files ∧
      Grows base c.host.files (conclude s c).files := by
  have hfound := h.adds.directories.walk h.site.found
  have hkeeps : Keeps (fun l => ¬ InJournals base l) c.host.files (conclude s c).files := by
    rw [conclude_eq]
    exact Journal.keeps_close (avoids_journal hfound h.operation)
  exact ⟨h.adds.keeps hkeeps, .of_keeps hkeeps⟩

end AudioProject.Instantiation
