import AudioProject.Proofs.Instantiation.Atomicity
import AudioProject.Proofs.Store.OnDisk

/-
  What an instantiation makes of the documents of its project. A run has written some documents,
  each where none was, and notes the path of each (`Written`); media go to other places. So what a
  run that failed has written is gone after it is undone, and one that goes well adds the documents
  of its plan and changes no other (`instantiate_documents`). Nothing is assumed of what stands
  beside the documents, drafts and journals included.
-/

namespace AudioProject

open FileTree AudioProject.Path Store

namespace Instantiation

variable {s : Store} {base j : Location} {docs more : List (List Object)} {os : List Object}
  {t₀ t t' : FileTree} {c c' : Run}

/-! ## Documents that come -/

/-- The place of the document of some objects, which its first object tells. -/
def documentPlace? (base : Location) : List Object → Option Location
  | [] => none
  | o :: _ => o.objectClass.directory?.map fun dir => base ++ namesOf dir o.id.fileName

theorem isDocumentPlace_of_documentPlace? (h : documentPlace? base os = some j) :
    IsDocumentPlace base j := by
  cases os with
  | nil => cases h
  | cons o os =>
    obtain ⟨dir, -, rfl⟩ := Option.map_eq_some_iff.1 h
    exact isDocumentPlace_namesOf base dir (isXml_fileName o.id)

/-- The documents of `docs` are new in the second tree, each at a place of its own, and all others
are as before. -/
structure AddsDocuments (s : Store) (base : Location) (docs : List (List Object))
    (t t' : FileTree) : Prop where
  new : ∀ os ∈ docs, ∃ j, documentPlace? base os = some j ∧ t.contentAt? j = none ∧
    t'.contentAt? j = some (s.documentBytes os)
  apart : docs.Pairwise fun os os' => documentPlace? base os ≠ documentPlace? base os'
  others : ∀ j, IsDocumentPlace base j → (∀ os ∈ docs, documentPlace? base os ≠ some j) →
    t'.contentAt? j = t.contentAt? j

namespace AddsDocuments

theorem refl (s : Store) (base : Location) (t : FileTree) : AddsDocuments s base [] t t :=
  ⟨by simp, .nil, fun _ _ _ => rfl⟩

theorem keeps (h : AddsDocuments s base docs t₀ t) (hkeeps : Keeps (IsDocumentPlace base) t t') :
    AddsDocuments s base docs t₀ t' where
  new := by
    intro os hos
    obtain ⟨j, hj, hold, hnew⟩ := h.new os hos
    exact ⟨j, hj, hold, (hkeeps.content j (isDocumentPlace_of_documentPlace? hj)).trans hnew⟩
  apart := h.apart
  others := fun j hj hdocs => (hkeeps.content j hj).trans (h.others j hj hdocs)

/-- One document more comes. It is none of the others, since nothing was at its place. -/
theorem comes (h : AddsDocuments s base docs t₀ t) (hj : documentPlace? base os = some j)
    (hcomes : Comes j (s.documentBytes os) t t') : AddsDocuments s base (docs ++ [os]) t₀ t' := by
  have hplace := isDocumentPlace_of_documentPlace? hj
  have hdistinct : ∀ os' ∈ docs, documentPlace? base os' ≠ some j := by
    intro os' hos' hsame
    obtain ⟨j', hj', -, hcontent⟩ := h.new os' hos'
    obtain rfl : j = j' := Option.some.inj (hsame.symm.trans hj')
    rw [hcomes.absent] at hcontent
    cases hcontent
  have hkept : ∀ {i}, IsDocumentPlace base i → i ≠ j → t'.contentAt? i = t.contentAt? i :=
    fun hi hne => hcomes.others.content _ ⟨hi.isSettled, hne⟩
  constructor
  · intro os' hos'
    rcases List.mem_append.1 hos' with hos' | hos'
    · obtain ⟨i, hi, hold, hnew⟩ := h.new os' hos'
      have hne : i ≠ j := fun hsame => hdistinct os' hos' (hsame ▸ hi)
      exact ⟨i, hi, hold, (hkept (isDocumentPlace_of_documentPlace? hi) hne).trans hnew⟩
    · rw [List.mem_singleton.1 hos']
      exact ⟨j, hj, (h.others j hplace hdistinct).symm.trans hcomes.absent, hcomes.content⟩
  · refine List.pairwise_append.2 ⟨h.apart, List.pairwise_singleton _ _, fun os' hos' os'' hos'' => ?_⟩
    rw [List.mem_singleton.1 hos'', hj]
    exact hdistinct os' hos'
  · intro i hi hdocs
    have hne : i ≠ j := fun hsame => hdocs os List.mem_concat_self (hsame ▸ hj)
    exact (hkept hi hne).trans
      (h.others i hi fun os' hos' => hdocs os' (List.mem_append_left _ hos'))

end AddsDocuments

/-! ## What a run has written -/

/-- A run has written `docs`. Its notes lead to these documents, and to no others. -/
structure Written (s : Store) (base : Location) (t₀ : FileTree) (docs : List (List Object))
    (c : Run) : Prop where
  anchored : Anchored c.host.files s.layout base
  adds : AddsDocuments s base docs t₀ c.host.files
  covered : ∀ os ∈ docs, ∀ j, documentPlace? base os = some j →
    ∃ p ∈ c.created, c.host.files.locate p = .ok j
  only : ∀ p ∈ c.created, ∃ j, c.host.files.locate p = .ok j ∧
    (IsDocumentPlace base j → ∃ os ∈ docs, documentPlace? base os = some j)

/-- Changes beside the documents do not matter. -/
theorem Written.keeps (h : Written s base t₀ docs c)
    (hkeeps : Keeps (IsDocumentPlace base) c.host.files c'.host.files)
    (hwell : c'.host.files.WellFormed) (hcreated : c'.created = c.created) :
    Written s base t₀ docs c' where
  anchored := h.anchored.keeps hkeeps hwell
  adds := h.adds.keeps hkeeps
  covered := by
    intro os hos j hj
    obtain ⟨p, hp, hlocate⟩ := h.covered os hos j hj
    exact ⟨p, hcreated ▸ hp, hkeeps.locate hlocate⟩
  only := by
    intro p hp
    obtain ⟨j, hlocate, hdocs⟩ := h.only p (hcreated ▸ hp)
    exact ⟨j, hkeeps.locate hlocate, hdocs⟩

theorem Written.append (h : Written s base t₀ docs c) (d : Journal.Deed) :
    Written s base t₀ docs ((Run.append s.layout d).after c) := by
  rw [after_append]
  refine h.keeps ?_ (Journal.wellFormed_save h.anchored.well) rfl
  exact Journal.keeps_save fun _ _ _ hl hplace => not_isSettled_journal hl hplace.isSettled

/-- A file that is none of the documents is noted. -/
theorem Written.media (h : Written s base t₀ docs c) {p : Path}
    (hkeeps : Keeps (IsDocumentPlace base) c.host.files t) (hwell : t.WellFormed)
    (hp : t.locate p = .ok j) (hj : ¬ IsDocumentPlace base j) :
    Written s base t₀ docs (noted c p t) := by
  have hmoved : Written s base t₀ docs { c with host := { c.host with files := t } } :=
    h.keeps hkeeps hwell rfl
  refine ⟨hmoved.anchored, hmoved.adds, fun os hos i hi => ?_, ?_⟩
  · obtain ⟨q, hq, hlocate⟩ := hmoved.covered os hos i hi
    exact ⟨q, List.mem_cons_of_mem _ hq, hlocate⟩
  · exact List.forall_mem_cons.2 ⟨⟨j, hp, fun hplace => absurd hplace hj⟩, hmoved.only⟩

/-- A document is written and noted. -/
theorem Written.document (h : Written s base t₀ docs c) {path : Path}
    (hwrite : s.writeDocument os c.host.files = .ok path t) :
    Written s base t₀ (docs ++ [os]) (noted c path t) := by
  cases os with
  | nil =>
    unfold Store.writeDocument at hwrite
    cases hwrite
  | cons o os =>
    obtain ⟨dir, hdir, rfl, hproper, hcomes, hanchored⟩ := writeDocument_comes h.anchored hwrite
    have hdocument := isDocumentDir_of_directory hdir
    have hxml := isXml_fileName o.id
    have hplace : documentPlace? base (o :: os) = some (base ++ namesOf dir o.id.fileName) :=
      Option.map_eq_some_iff.2 ⟨dir, hdir, rfl⟩
    have hlocate := locate_document hanchored hdocument hxml hproper hcomes.content
    refine ⟨hanchored, h.adds.comes hplace hcomes, fun os' hos' j hj => ?_, ?_⟩
    · rcases List.mem_append.1 hos' with hos' | hos'
      · obtain ⟨p, hp, hl⟩ := h.covered os' hos' j hj
        exact ⟨p, List.mem_cons_of_mem _ hp, hcomes.others.locate hl⟩
      · rw [List.mem_singleton.1 hos', hplace] at hj
        exact ⟨_, List.mem_cons_self, Option.some.inj hj ▸ hlocate⟩
    · refine List.forall_mem_cons.2 ⟨⟨_, hlocate, fun _ => ⟨_, List.mem_concat_self, hplace⟩⟩, ?_⟩
      intro p hp
      obtain ⟨j, hl, hdocs⟩ := h.only p hp
      refine ⟨j, hcomes.others.locate hl, fun hj => ?_⟩
      obtain ⟨os', hos', hsame⟩ := hdocs hj
      exact ⟨os', List.mem_append_left _ hos', hsame⟩

/-! ## Parts of a run -/

/-- A part of a run writes `docs` if it goes well, and some documents if it does not. -/
structure Writes (s : Store) (base : Location) (t₀ : FileTree) (docs : List (List Object))
    (x : Action Run Error Unit) : Prop where
  ok : ∀ {c c' old u}, Written s base t₀ old c → x c = .ok u c' →
    Written s base t₀ (old ++ docs) c'
  error : ∀ {c c' old e}, Written s base t₀ old c → x c = .error e c' →
    ∃ some, Written s base t₀ some c'

theorem Writes.bind {x y : Action Run Error Unit} (hx : Writes s base t₀ docs x)
    (hy : Writes s base t₀ more y) : Writes s base t₀ (docs ++ more) (x >>= fun _ => y) where
  ok := by
    intro c c'' old u hwritten h
    obtain ⟨_, c', hfirst, hrest⟩ := Action.bind_eq_ok.1 h
    rw [← List.append_assoc]
    exact hy.ok (hx.ok hwritten hfirst) hrest
  error := by
    intro c c'' old e hwritten h
    rcases Action.bind_eq_error.1 h with h | ⟨_, c', hfirst, hrest⟩
    · exact hx.error hwritten h
    · exact hy.error (hx.ok hwritten hfirst) hrest

theorem writes_pure : Writes s base t₀ [] (pure ()) where
  ok := by
    intro c c' old u hwritten h
    cases h
    rwa [List.append_nil]
  error := by
    intro c c' old e hwritten h
    cases h

theorem Writes.forM {α : Type} {x : α → Action Run Error Unit} {f : α → List (List Object)}
    {as : List α} (hx : ∀ a ∈ as, Writes s base t₀ (f a) (x a)) :
    Writes s base t₀ (as.flatMap f) (as.forM x) := by
  induction as with
  | nil => exact writes_pure
  | cons a as ih =>
    exact (hx a List.mem_cons_self).bind (ih fun b hb => hx b (List.mem_cons_of_mem _ hb))

theorem writes_append (d : Journal.Deed) : Writes s base t₀ [] (Run.append s.layout d) where
  ok := by
    intro c c' old u hwritten h
    rw [List.append_nil, ← Action.after_of_ok h]
    exact hwritten.append d
  error := by
    intro c c' old e hwritten h
    rw [← Action.after_of_error h]
    exact ⟨old, hwritten.append d⟩

theorem writes_writeObjects (k : ObjectClass) (id : ObjectId) (os : List Object) :
    Writes s base t₀ [os] (writeObjects s k id os) where
  ok := by
    intro c c' old u hwritten h
    obtain ⟨path, t, hwrite, rfl⟩ := writeObjects_eq_ok h
    exact (hwritten.document hwrite).append (.objectWrite k.name id path)
  error := by
    intro c c' old e hwritten h
    rcases writeObjects_eq_error h with ⟨e', t, hwrite, rfl⟩ | ⟨path, t, hwrite, rfl⟩
    · refine ⟨old, hwritten.keeps ?_ ?_ rfl⟩
      · exact (writeDocument_fails hwrite).mono fun j hj => hj.isSettled
      · show t.WellFormed
        rw [← Action.after_of_error hwrite]
        exact wellFormed_writeDocument hwritten.anchored.well
    · exact ⟨old ++ [os], (hwritten.document hwrite).append (.objectWrite k.name id path)⟩

/-! ### Media -/

theorem wellFormed_copyFile (h : t.WellFormed) (source dest : Path) :
    ((copyFile source dest).after t).WellFormed := by
  rw [copyFile_eq]
  refine h.after_bind (fun h => ?_) fun _ t₁ h₁ => ?_
  · unfold makeParent
    cases dest.parent? with
    | none => exact h
    | some dir => exact h.createDirs dir
  refine h₁.after_bind (fun h => ?_) fun done t₂ h₂ => ?_
  · rw [Action.after_outcome]
    exact h.after_changing fun _ => h.copy
  cases done with
  | ok _ => exact h₂
  | error _ =>
    refine h₂.after_bind (fun h => ?_) fun _ _ h₃ => h₃
    rw [Action.after_outcome]
    exact h.after_changing fun _ => h.removeFile

theorem not_isDocumentPlace {names : List String} (h : IsAssets names) :
    ¬ IsDocumentPlace base (base ++ names) := by
  intro hplace
  obtain ⟨rest, hrest⟩ := (List.prefix_append_right_inj base).1 hplace.below
  refine h.not_documents ?_
  rw [← hrest]
  rfl

/-- A copy below the assets directory leaves the documents, whether it comes about or not. -/
theorem keeps_copyFile (h : Anchored t s.layout base) {names : List String} (hassets : IsAssets names)
    (source : Path) :
    Keeps (IsDocumentPlace base) t ((copyFile source (s.layout.root.descend names)).after t) ∧
      ∀ u t', copyFile source (s.layout.root.descend names) t = .ok u t' →
        t'.locate (s.layout.root.descend names) = .ok (base ++ names) := by
  have hout : ¬ IsDocumentPlace base (base ++ names) := not_isDocumentPlace hassets
  have hplace : ∀ {t₁ l}, Keeps (fun _ => True) t t₁ →
      t₁.locate (s.layout.root.descend names) = .ok l → l = base ++ names := fun hdirs hl =>
    eq_of_locate_descend hassets.plain (hdirs.walk h.root) hl
  cases hcopy : copyFile source (s.layout.root.descend names) t with
  | ok u t'' =>
    obtain ⟨t₁, ls, l, b, hdirs, -, -, hl, hdir, rfl⟩ := copyFile_eq_ok hcopy
    obtain rfl := hplace hdirs hl
    have hput := keeps_put t₁ hdir b
    rw [Action.after_of_ok hcopy]
    refine ⟨(hdirs.mono fun _ _ => trivial).trans (hput.mono ?_), fun v t₂ hok => ?_⟩
    · rintro j hj rfl
      exact hout hj
    · cases hok
      exact hput.locate hl
  | error e t'' =>
    rw [Action.after_of_error hcopy]
    refine ⟨?_, fun v t₂ hok => by cases hok⟩
    obtain ⟨t₁, hdirs, rfl | hremove⟩ := copyFile_eq_error hcopy
    · exact hdirs.mono fun _ _ => trivial
    · obtain ⟨l, b, hl, hb, rfl⟩ := removeFile_eq_ok.1 hremove
      obtain rfl := hplace hdirs hl
      refine (hdirs.mono fun _ _ => trivial).trans ((keeps_drop t₁ (by simp [hb])).mono ?_)
      rintro j hj rfl
      exact hout hj

theorem Written.copied (h : Written s base t₀ docs c) {names : List String}
    (hassets : IsAssets names) {source : Path} {u : Unit}
    (hcopy : copyFile source (s.layout.root.descend names) c.host.files = .ok u t) :
    Written s base t₀ docs (noted c (s.layout.root.descend names) t) := by
  obtain ⟨hkeeps, hlocate⟩ := keeps_copyFile h.anchored hassets source
  have hwell := wellFormed_copyFile h.anchored.well source (s.layout.root.descend names)
  rw [Action.after_of_ok hcopy] at hkeeps hwell
  exact h.media hkeeps hwell (hlocate u t hcopy) (not_isDocumentPlace hassets)

theorem writes_copyMedia {p : PlannedCopy} {names : List String}
    (hdest : p.dest = s.layout.root.descend names) (hassets : IsAssets names) :
    Writes s base t₀ [] (copyMedia s.layout p) := by
  cases hreuse : p.reuse with
  | true =>
    rw [copyMedia_of_reuse hreuse]
    exact writes_pure
  | false =>
    constructor
    · intro c c' old u hwritten h
      obtain ⟨-, t, hcopy, rfl⟩ := copyMedia_eq_ok hreuse h
      rw [hdest] at hcopy ⊢
      rw [List.append_nil]
      exact (hwritten.copied hassets hcopy).append (.mediaCopy p.source _)
    · intro c c' old e hwritten h
      rcases copyMedia_eq_error hreuse h with rfl | ⟨-, ⟨e', t, hcopy, rfl⟩ | ⟨t, hcopy, rfl⟩⟩
      · exact ⟨old, hwritten⟩
      · rw [hdest] at hcopy
        have hkeeps := (keeps_copyFile hwritten.anchored hassets p.source).1
        have hwell := wellFormed_copyFile hwritten.anchored.well p.source
          (s.layout.root.descend names)
        rw [Action.after_of_error hcopy] at hkeeps hwell
        exact ⟨old, hwritten.keeps hkeeps hwell rfl⟩
      · rw [hdest] at hcopy ⊢
        exact ⟨old, (hwritten.copied hassets hcopy).append (.mediaCopy p.source _)⟩

/-! ## The whole run -/

/-- The documents of a plan, that of the event last. -/
def Plan.documents (p : Plan) : List (List Object) :=
  p.audioFiles.map (fun o => [o]) ++ [p.event.objects]

theorem Plan.ids_documents (p : Plan) :
    (p.documents.flatMap fun os => os.map Object.id) =
      (p.audioFiles ++ p.event.objects).map Object.id := by
  unfold Plan.documents
  rw [List.flatMap_append, List.flatMap_map, List.flatMap_singleton, List.map_append,
    List.map_eq_flatMap (l := p.audioFiles)]
  rfl

theorem writes_execute {p : Plan} (hdest : ∀ c ∈ p.copies, ∃ names,
    c.dest = s.layout.root.descend names ∧ IsAssets names) :
    Writes s base t₀ p.documents (execute s p) := by
  have hcopies : Writes s base t₀ (p.copies.flatMap fun _ => [])
      (p.copies.forM (copyMedia s.layout)) := by
    refine .forM fun c hc => ?_
    obtain ⟨names, hnames, hassets⟩ := hdest c hc
    exact writes_copyMedia hnames hassets
  have haudio : Writes s base t₀ (p.audioFiles.flatMap fun o => [[o]])
      (p.audioFiles.forM fun o => writeObjects s o.objectClass o.id [o]) :=
    .forM fun o _ => writes_writeObjects o.objectClass o.id [o]
  have hmark : Writes s base t₀ [] (Run.append s.layout (.checkpoint "media")) := writes_append _
  have hevent : Writes s base t₀ [p.event.objects]
      (writeObjects s .event p.eventId p.event.objects) := writes_writeObjects _ _ _
  have hall := hcopies.bind (hmark.bind (haudio.bind hevent))
  have hdocs : (p.copies.flatMap fun _ => []) ++ ([] ++ ((p.audioFiles.flatMap fun o => [[o]]) ++
      [p.event.objects])) = p.documents := by
    unfold Plan.documents
    rw [List.map_eq_flatMap]
    simp
  rw [hdocs] at hall
  exact hall

/-! ## Undoing a run -/

/-- The files that paths lead to are gone, and nothing else has changed. -/
structure Clears (ps : List Path) (t t' : FileTree) : Prop where
  directories : SameDirectories t t'
  cleared : ∀ p ∈ ps, ∀ l, t.locate p = .ok l → t'.contentAt? l = none
  others : ∀ l, (∀ p ∈ ps, t.locate p ≠ .ok l) → t'.contentAt? l = t.contentAt? l
  well : t.WellFormed → t'.WellFormed

theorem Clears.cons {p : Path} {ps : List Path} {t'' : FileTree} (h : Clears [p] t t')
    (h' : Clears ps t' t'') : Clears (p :: ps) t t'' := by
  have hrest : ∀ q ∈ ps, ∀ l, t.locate q = .ok l → t''.contentAt? l = none := fun q hq l hl =>
    h'.cleared q hq l (h.directories.locate.2 hl)
  refine ⟨h.directories.trans h'.directories, List.forall_mem_cons.2 ⟨fun l hl => ?_, hrest⟩,
    fun l hl => ?_, fun hwell => h'.well (h.well hwell)⟩
  · by_cases hagain : ∃ q ∈ ps, t.locate q = .ok l
    · obtain ⟨q, hq, hagain⟩ := hagain
      exact hrest q hq l hagain
    · rw [h'.others l fun q hq hl' => hagain ⟨q, hq, h.directories.locate.1 hl'⟩]
      exact h.cleared p List.mem_cons_self l hl
  · rw [h'.others l fun q hq hl' => hl q (List.mem_cons_of_mem _ hq) (h.directories.locate.1 hl')]
    exact h.others l fun q hq => hl q (List.mem_singleton.1 hq ▸ List.mem_cons_self)

theorem clears_removeAll (ps : List Path) (t : FileTree) : Clears ps t (removeAll ps t) := by
  induction ps generalizing t with
  | nil => exact ⟨⟨rfl, fun _ => Iff.rfl⟩, by simp, fun _ _ => rfl, fun h => h⟩
  | cons p ps ih =>
    rw [removeAll_cons]
    cases hremove : t.removeFile p with
    | ok t' =>
      refine Clears.cons ?_ (ih t')
      obtain ⟨j, b, hj, hb, rfl⟩ := removeFile_eq_ok.1 hremove
      have hdir : t.node? j ≠ some .directory := by simp [hb]
      refine ⟨sameDirectories_drop t hdir, fun q hq l hl => ?_, fun l hl => ?_, fun hwell =>
        hwell.drop hdir⟩
      · rw [List.mem_singleton.1 hq, hj] at hl
        obtain rfl := Except.ok.inj hl
        rw [contentAt?_drop t (ne_nil_of_node? hdir), if_pos rfl]
      · rw [contentAt?_drop t (ne_nil_of_node? hdir), if_neg]
        rintro rfl
        exact hl p List.mem_cons_self hj
    | error e =>
      refine Clears.cons ⟨⟨rfl, fun _ => Iff.rfl⟩, fun q hq l hl => ?_, fun _ _ => rfl, fun h => h⟩
        (ih t)
      -- a file there would have been removed
      rw [List.mem_singleton.1 hq] at hl
      refine Option.eq_none_iff_forall_ne_some.2 fun b hb => ?_
      rw [removeFile_eq_ok.2 ⟨l, b, hl, contentAt?_eq_some.1 hb, rfl⟩] at hremove
      cases hremove

/-- Undoing a run takes away all documents that it wrote. -/
theorem rollBack_documents (h : Written s base t₀ docs c) :
    Anchored (rollBack s c).files s.layout base ∧
      ∀ j, IsDocumentPlace base j → (rollBack s c).files.contentAt? j = t₀.contentAt? j := by
  have hclears : Clears c.created c.host.files c.cleared.files := clears_removeAll _ _
  have hdirs : Keeps (fun _ => False) c.host.files c.cleared.files :=
    .of_sameDirectories hclears.directories (by simp)
  have hanchored := h.anchored.keeps hdirs (hclears.well h.anchored.well)
  have hrestored : ∀ j, IsDocumentPlace base j →
      c.cleared.files.contentAt? j = t₀.contentAt? j := by
    intro j hj
    by_cases hdocs : ∃ os ∈ docs, documentPlace? base os = some j
    · obtain ⟨os, hos, hplace⟩ := hdocs
      obtain ⟨p, hp, hlocate⟩ := h.covered os hos j hplace
      obtain ⟨i, hi, hold, -⟩ := h.adds.new os hos
      obtain rfl : j = i := Option.some.inj (hplace.symm.trans hi)
      rw [hclears.cleared p hp j hlocate, hold]
    · rw [← h.adds.others j hj fun os hos hplace => hdocs ⟨os, hos, hplace⟩]
      refine hclears.others j fun p hp hlocate => hdocs ?_
      obtain ⟨i, hi, hwritten⟩ := h.only p hp
      obtain rfl : j = i := Except.ok.inj (hlocate.symm.trans hi)
      exact hwritten hj
  obtain ⟨hkeeps, hwell⟩ : Keeps IsSettled c.cleared.files (rollBack s c).files ∧
      (rollBack s c).files.WellFormed := by
    rw [rollBack_eq]
    split
    · exact ⟨Journal.keeps_save fun _ _ _ hl => not_isSettled_journal hl,
        Journal.wellFormed_save hanchored.well⟩
    · exact ⟨Journal.keeps_delete fun _ _ _ hl => not_isSettled_journal hl,
        Journal.wellFormed_delete hanchored.well⟩
  refine ⟨hanchored.keeps hkeeps hwell, fun j hj => ?_⟩
  rw [hkeeps.content j hj.isSettled, hrestored j hj]

theorem conclude_documents (h : Written s base t₀ docs c) :
    Anchored (conclude s c).files s.layout base ∧
      AddsDocuments s base docs t₀ (conclude s c).files := by
  obtain ⟨hkeeps, hwell⟩ : Keeps IsSettled c.host.files (conclude s c).files ∧
      (conclude s c).files.WellFormed := by
    rw [conclude_eq]
    exact ⟨Journal.keeps_close fun _ _ _ hl => not_isSettled_journal hl,
      Journal.wellFormed_close h.anchored.well⟩
  exact ⟨h.anchored.keeps hkeeps hwell, h.adds.keeps (hkeeps.mono fun j hj => hj.isSettled)⟩

/-! ## The instantiation -/

/-- An instantiation that goes well adds the documents of its plan to the project, and one that
fails leaves all documents as they were. -/
theorem instantiate_documents {probing : Bool} {r : Request} {h : Host}
    (hanchored : Anchored h.files s.layout base)
    (hassets : Settings.checkAssetsDir s.layout.assetsDir = .ok ()) :
    (∀ id h', instantiate s probing r h = .ok id h' → Anchored h'.files s.layout base ∧
      ∃ p ids', plan s h.files probing r h.ids = .ok p ids' ∧
        AddsDocuments s base p.documents h.files h'.files) ∧
    (∀ e h', instantiate s probing r h = .error e h' → Anchored h'.files s.layout base ∧
      AddsDocuments s base [] h.files h'.files) := by
  cases hplan : plan s h.files probing r h.ids with
  | error e ids =>
    rw [instantiate_of_plan_error hplan]
    refine ⟨fun id h' hok => (by cases hok), fun e' h' herror => ?_⟩
    cases herror
    exact ⟨hanchored, .refl s base _⟩
  | ok p ids =>
    have hstart : Written s base h.files [] (start h ids) :=
      ⟨hanchored, .refl s base _, by simp, by simp [start]⟩
    have hwrites : Writes s base h.files p.documents (execute s p) :=
      writes_execute fun c hc => exists_names_of_plans (plans_of_plan hplan).1 hassets hc
    rw [instantiate_of_plan_ok hplan]
    cases hrun : execute s p (start h ids) with
    | ok u c =>
      refine ⟨fun id h' hok => ?_, fun e' h' herror => by cases herror⟩
      cases hok
      obtain ⟨hanchored', hadds⟩ := conclude_documents (hwrites.ok hstart hrun)
      exact ⟨hanchored', p, ids, rfl, hadds⟩
    | error e c =>
      refine ⟨fun id h' hok => (by cases hok), fun e' h' herror => ?_⟩
      cases herror
      obtain ⟨docs, hwritten⟩ := hwrites.error hstart hrun
      obtain ⟨hanchored', hsame⟩ := rollBack_documents hwritten
      exact ⟨hanchored', by simp, .nil, fun j hj _ => hsame j hj⟩

end Instantiation

end AudioProject
