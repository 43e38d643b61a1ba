import AudioProject.Proofs.Instantiation.Sparing

/-
  The files that an instantiation leaves when it goes well. A copy holds the bytes of its source,
  and a file that is reused holds them already (`Duplicate`). Parts of a run bring such files and
  documents about, one after another, and spare those that are there (`Attains`), so all of them
  are there in the end: `filesInPlace_of_instantiate`.
-/

namespace AudioProject

open FileTree AudioProject.Path Store

namespace Instantiation

variable {P : Location → Prop} {s : Store} {r : Request} {base j : Location} {op : String}
  {t₀ t t' : FileTree} {c₀ c c' : Run} {path source dest : Path} {b : ByteArray}
  {os : List Object} {R S : FileTree → Prop} {probing : Bool} {ids ids' : IdSupply} {p : Plan}

/-! ## Files that last -/

/-- A place of neither the journal of an operation nor the draft of a document. -/
structure IsLasting (base : Location) (op : String) (j : Location) : Prop where
  not_journal : j ≠ base ++ journalNames op
  not_draft : ∀ dir id, j ≠ base ++ draftNames dir id

theorem isLasting_of_isPlanned {names : List String} (h : IsPlanned names) :
    IsLasting base op (base ++ names) where
  not_journal := fun hsame =>
    h.not_journal ⟨[op ++ ".json"], (List.append_cancel_left hsame).symm⟩
  not_draft := fun dir id hsame => h.not_draft dir id (List.append_cancel_left hsame)

theorem sparesDrafts_isLasting : SparesDrafts (IsLasting base op) base := fun dir id h =>
  h.not_draft dir id rfl

theorem sparesJournal_isLasting {name : String} (hop : '/' ∉ op.toList) (hname : name = op) :
    SparesJournal (IsLasting base op) base name := by
  subst hname
  exact ⟨hop, fun h => h.not_journal rfl⟩

/-- A file with these bytes is at the path, and its place is one of `P`. -/
def Stored (P : Location → Prop) (t : FileTree) (path : Path) (b : ByteArray) : Prop :=
  t.read path = .ok b ∧ ∃ j, t.locate path = .ok j ∧ P j

theorem Stored.spares (h : Stored P t path b) (hspares : Spares P t t') : Stored P t' path b := by
  obtain ⟨hread, j, hj, hP⟩ := h
  obtain ⟨i, hi, hcontent⟩ := read_eq_ok.1 hread
  obtain rfl : i = j := Except.ok.inj (hi.symm.trans hj)
  exact ⟨Keeps.read hspares hj ⟨hP, by simp [hcontent]⟩ hread, i, Keeps.locate hspares hj, hP⟩

/-- The file at `dest` holds the bytes of its source. -/
structure Duplicate (base : Location) (op : String) (t₀ t : FileTree) (source dest : Path)
    (b : ByteArray) : Prop where
  stored : Stored (IsLasting base op) t dest b
  /-- The source is still there; only a journal or a draft may have changed since it was read. -/
  now : ∃ j, t.locate source = .ok j ∧ (IsLasting base op j → t.contentAt? j = some b)
  /-- What was there at the start is what was read. -/
  before : ∀ j b₀, j ≠ base ++ journalNames op → t₀.locate source = .ok j →
    t₀.contentAt? j = some b₀ → b₀ = b

theorem Duplicate.spares (h : Duplicate base op t₀ t source dest b)
    (hspares : Spares (IsLasting base op) t t') : Duplicate base op t₀ t' source dest b where
  stored := h.stored.spares hspares
  now := by
    obtain ⟨j, hj, hcontent⟩ := h.now
    exact ⟨j, Keeps.locate hspares hj, fun hP => hspares.content hP (hcontent hP)⟩
  before := h.before

/-- The document of some objects is there. -/
def HasDocument (P : Location → Prop) (s : Store) (os : List Object) (t : FileTree) : Prop :=
  ∃ o rest path, os = o :: rest ∧ s.layout.objectPath? o.objectClass o.id = some path ∧
    Stored P t path (s.documentBytes os)

theorem HasDocument.spares (h : HasDocument P s os t) (hspares : Spares P t t') :
    HasDocument P s os t' := by
  obtain ⟨o, rest, path, hos, hpath, hstored⟩ := h
  exact ⟨o, rest, path, hos, hpath, hstored.spares hspares⟩

/-! ## Parts of a run -/

/-- A part of a run that has come from `c₀` spares files, and brings about `R` if it goes well. -/
structure Attains (P : Location → Prop) (s : Store) (base : Location) (c₀ : Run)
    (R : FileTree → Prop) (x : Action Run Error Unit) : Prop where
  steady : IsSteady P s base c₀.journal.operation x
  ok : ∀ {c c' u}, Advances P s base c₀ c → x c = .ok u c' → R c'.host.files

namespace Attains

variable {x y : Action Run Error Unit}

theorem advances (h : Attains P s base c₀ R x) (hc : Advances P s base c₀ c) {u : Unit}
    (hx : x c = .ok u c') : Advances P s base c c' := by
  have hstep := h.steady c hc.anchored hc.operation
  rwa [Action.after_of_ok hx] at hstep

theorem bind (hx : Attains P s base c₀ R x) (hy : Attains P s base c₀ S y)
    (hR : ∀ {t t'}, Spares P t t' → R t → R t') :
    Attains P s base c₀ (fun t => R t ∧ S t) (x >>= fun _ => y) where
  steady := hx.steady.bind hy.steady
  ok := by
    intro c c'' u hc h
    obtain ⟨_, c', hfirst, hrest⟩ := Action.bind_eq_ok.1 h
    have hc' := hc.trans (hx.advances hc hfirst)
    exact ⟨hR (hy.advances hc' hrest).spares (hx.ok hc hfirst), hy.ok hc' hrest⟩

theorem forM {α : Type} {R : α → FileTree → Prop} {x : α → Action Run Error Unit} {as : List α}
    (hx : ∀ a ∈ as, Attains P s base c₀ (R a) (x a))
    (hR : ∀ {a t t'}, Spares P t t' → R a t → R a t') :
    Attains P s base c₀ (fun t => ∀ a ∈ as, R a t) (as.forM x) := by
  induction as with
  | nil => exact ⟨.forM nofun, fun _ _ => nofun⟩
  | cons a as ih =>
    have hrest := ih fun b hb => hx b (List.mem_cons_of_mem _ hb)
    have hboth := (hx a List.mem_cons_self).bind hrest hR
    exact ⟨hboth.steady, fun hc h => List.forall_mem_cons.2 (hboth.ok hc h)⟩

theorem append (hop : SparesJournal P base c₀.journal.operation) (d : Journal.Deed) :
    Attains P s base c₀ (fun _ => True) (Run.append s.layout d) :=
  ⟨.append hop d, fun _ _ => trivial⟩

end Attains

/-- Noting and journaling a new file leaves it. -/
theorem spares_append_noted (hanchored : Anchored t s.layout base)
    (hop : SparesJournal P base c.journal.operation) (d : Journal.Deed) :
    Spares P t ((Run.append s.layout d).after (noted c path t)).host.files := by
  have hop' : SparesJournal P base (noted c path t).journal.operation := hop
  have hanchored' : Anchored (noted c path t).host.files s.layout base := hanchored
  exact (Advances.append hanchored' hop' d).spares

theorem attains_writeObjects (hop : '/' ∉ op.toList) (hstart : c₀.journal.operation = op)
    (k : ObjectClass) (id : ObjectId) (os : List Object) :
    Attains (IsLasting base op) s base c₀ (HasDocument (IsLasting base op) s os)
      (writeObjects s k id os) where
  steady := by
    rw [hstart]
    exact .writeObjects sparesDrafts_isLasting (sparesJournal_isLasting hop rfl) k id os
  ok := by
    intro c c' u hc h
    obtain ⟨path, t, hwrite, rfl⟩ := writeObjects_eq_ok h
    cases os with
    | nil =>
      unfold Store.writeDocument at hwrite
      cases hwrite
    | cons o os =>
      obtain ⟨dir, hdir, rfl, hproper, hcomes, hanchored⟩ := writeDocument_comes hc.anchored hwrite
      have hdocument := isDocumentDir_of_directory hdir
      have hxml := isXml_fileName o.id
      have hread := (read_document hanchored hdocument hxml).2 ⟨hproper, hcomes.content⟩
      have hlocate := locate_document hanchored hdocument hxml hproper hcomes.content
      have hlasting : IsLasting base op (base ++ documentNames dir o.id) :=
        isLasting_of_isPlanned (isPlanned_documentNames hdocument.plain o.id)
      have hstored : Stored (IsLasting base op) t _ _ := ⟨hread, _, hlocate, hlasting⟩
      have hop' : SparesJournal (IsLasting base op) base c.journal.operation :=
        sparesJournal_isLasting hop (hc.operation.trans hstart)
      exact ⟨o, os, _, rfl, Option.map_eq_some_iff.2 ⟨dir, hdir, rfl⟩,
        hstored.spares (spares_append_noted hanchored hop' _)⟩

/-! ### Media

Media come before all documents. So while they are copied drafts last too, and a draft that is a
source holds what it held at the start. -/

theorem sparesJournal_ne (hop : '/' ∉ op.toList) :
    SparesJournal (· ≠ base ++ journalNames op) base op := ⟨hop, fun h => h rfl⟩

/-- What spares all but the journal spares what lasts. -/
theorem lasting_of_ne (h : Spares (· ≠ base ++ journalNames op) t t') :
    Spares (IsLasting base op) t t' := h.mono fun _ hj => hj.not_journal

/-- A file that is reused is a duplicate from the start. -/
theorem duplicate_of_reads (hanchored : Anchored t s.layout base) {names : List String}
    (hassets : IsAssets names) (hsource : t.read source = .ok b)
    (hdest : t.read (s.layout.root.descend names) = .ok b) :
    Duplicate base op t t source (s.layout.root.descend names) b where
  stored := by
    obtain ⟨j, hj, -⟩ := read_eq_ok.1 hdest
    refine ⟨hdest, j, hj, ?_⟩
    rw [eq_of_locate_descend hassets.plain hanchored.root hj]
    exact isLasting_of_isPlanned hassets.isPlanned
  now := by
    obtain ⟨j, hj, hcontent⟩ := read_eq_ok.1 hsource
    exact ⟨j, hj, fun _ => hcontent⟩
  before := by
    intro j b₀ _ hj hcontent
    exact Except.ok.inj ((read_eq_ok.2 ⟨j, hj, hcontent⟩).symm.trans hsource)

/-- A new copy is one as soon as it is made, and other files stay. -/
theorem duplicate_of_copyFile (hanchored : Anchored t s.layout base) {names : List String}
    (hassets : IsAssets names) (hhas : t.has (s.layout.root.descend names) = false)
    (hspares : Spares (· ≠ base ++ journalNames op) t₀ t) {u : Unit}
    (hcopy : copyFile source (s.layout.root.descend names) t = .ok u t') :
    Spares (IsLasting base op) t t' ∧
      ∃ b, Duplicate base op t₀ t' source (s.layout.root.descend names) b := by
  have hfree := isFree_of_anchored hanchored hassets hhas
  have hcopied : Spares (· ≠ base ++ journalNames op) t t' := by
    rw [← Action.after_of_ok hcopy]
    exact spares_copyFile hfree
  obtain ⟨-, b, ls, hcreates, hls, hb⟩ := creates_of_isFree hfree hcopy
  refine ⟨lasting_of_ne hcopied, b, ⟨?_, ⟨ls, hls, fun _ => hb⟩, fun j b₀ hj hlocate hb₀ => ?_⟩⟩
  · exact ⟨read_eq_ok.2 ⟨_, hcreates.located, hcreates.content⟩, _, hcreates.located,
      isLasting_of_isPlanned hassets.isPlanned⟩
  · -- what the source held at the start it holds when it is copied
    have hall := hspares.trans hcopied
    obtain rfl : j = ls := Except.ok.inj ((Keeps.locate hall hlocate).symm.trans hls)
    exact Option.some.inj ((hall.content hj hb₀).symm.trans hb)

theorem attains_copyMedia {m : PlannedCopy} {names : List String}
    (hanchored : Anchored c₀.host.files s.layout base) (hop : '/' ∉ op.toList)
    (hstart : c₀.journal.operation = op) (hdest : m.dest = s.layout.root.descend names)
    (hassets : IsAssets names) (hreads : m.reuse = true →
      ∃ b, c₀.host.files.read m.source = .ok b ∧ c₀.host.files.read m.dest = .ok b) :
    Attains (· ≠ base ++ journalNames op) s base c₀
      (fun t => ∃ b, Duplicate base op c₀.host.files t m.source m.dest b)
      (copyMedia s.layout m) where
  steady := by
    rw [hstart]
    exact .copyMedia (sparesJournal_ne hop) hdest hassets
  ok := by
    intro c c' u hc h
    cases hreuse : m.reuse with
    | true =>
      rw [copyMedia_of_reuse hreuse] at h
      cases h
      obtain ⟨b, hsource, hthere⟩ := hreads hreuse
      rw [hdest] at hthere ⊢
      exact ⟨b, (duplicate_of_reads hanchored hassets hsource hthere).spares
        (lasting_of_ne hc.spares)⟩
    | false =>
      obtain ⟨hhas, t, hcopy, rfl⟩ := copyMedia_eq_ok hreuse h
      have hwell := wellFormed_copyFile hc.anchored.well m.source m.dest
      rw [Action.after_of_ok hcopy] at hwell
      rw [hdest] at hhas hcopy ⊢
      obtain ⟨hcopied, b, hduplicate⟩ :=
        duplicate_of_copyFile hc.anchored hassets hhas hc.spares hcopy
      have hop' : SparesJournal (IsLasting base op) base c.journal.operation :=
        sparesJournal_isLasting hop (hc.operation.trans hstart)
      exact ⟨b, hduplicate.spares
        (spares_append_noted (hc.anchored.spares hcopied hwell) hop' _)⟩

/-! ## The files of an instantiation -/

/-- The documents of a plan are there. -/
structure DocumentsInPlace (base : Location) (op : String) (s : Store) (p : Plan)
    (t : FileTree) : Prop where
  audio : ∀ o ∈ p.audioFiles, HasDocument (IsLasting base op) s [o] t
  event : HasDocument (IsLasting base op) s p.event.objects t

theorem DocumentsInPlace.spares (h : DocumentsInPlace base op s p t)
    (hspares : Spares (IsLasting base op) t t') : DocumentsInPlace base op s p t' :=
  ⟨fun o ho => (h.audio o ho).spares hspares, h.event.spares hspares⟩

theorem attains_writeAll (hop : '/' ∉ op.toList) (hstart : c₀.journal.operation = op) (p : Plan) :
    Attains (IsLasting base op) s base c₀ (DocumentsInPlace base op s p) (writeAll s p) := by
  have hmark : Attains (IsLasting base op) s base c₀ (fun _ => True)
      (Run.append s.layout (.checkpoint "media")) :=
    .append (sparesJournal_isLasting hop hstart) _
  have haudio : Attains (IsLasting base op) s base c₀
      (fun t => ∀ o ∈ p.audioFiles, HasDocument (IsLasting base op) s [o] t)
      (p.audioFiles.forM fun o => writeObjects s o.objectClass o.id [o]) :=
    .forM (fun o _ => attains_writeObjects hop hstart o.objectClass o.id [o])
      fun hspares h => h.spares hspares
  have hevent : Attains (IsLasting base op) s base c₀
      (HasDocument (IsLasting base op) s p.event.objects)
      (writeObjects s .event p.eventId p.event.objects) :=
    attains_writeObjects hop hstart .event p.eventId p.event.objects
  have hall := hmark.bind (haudio.bind hevent fun hspares h o ho => (h o ho).spares hspares)
    fun _ h => h
  refine ⟨hall.steady, fun hc h => ?_⟩
  obtain ⟨-, haudio', hevent'⟩ := hall.ok hc h
  exact ⟨haudio', hevent'⟩

theorem attains_copies (hanchored : Anchored c₀.host.files s.layout base) (hop : '/' ∉ op.toList)
    (hstart : c₀.journal.operation = op) {cs : List PlannedCopy}
    (hdest : ∀ m ∈ cs, ∃ names, m.dest = s.layout.root.descend names ∧ IsAssets names)
    (hreads : ∀ m ∈ cs, m.reuse = true →
      ∃ b, c₀.host.files.read m.source = .ok b ∧ c₀.host.files.read m.dest = .ok b) :
    Attains (· ≠ base ++ journalNames op) s base c₀
      (fun t => ∀ m ∈ cs, ∃ b, Duplicate base op c₀.host.files t m.source m.dest b)
      (cs.forM (copyMedia s.layout)) := by
  refine .forM (fun m hm => ?_) fun hspares ⟨b, hb⟩ => ⟨b, hb.spares (lasting_of_ne hspares)⟩
  obtain ⟨names, hnames, hassets⟩ := hdest m hm
  exact attains_copyMedia hanchored hop hstart hnames hassets (hreads m hm)

/-- After an instantiation that went well the media and the documents of its plan are there. -/
theorem filesInPlace_of_instantiate {h h' : Host} {id : ObjectId}
    (hanchored : Anchored h.files s.layout base)
    (hassets : Settings.checkAssetsDir s.layout.assetsDir = .ok ())
    (hop : '/' ∉ (h.operationName h.operations).toList)
    (hplan : plan s h.files probing r h.ids = .ok p ids')
    (hrun : instantiate s probing r h = .ok id h') : p.eventId = id ∧
      (∀ m ∈ p.copies, ∃ b, Duplicate base (h.operationName h.operations) h.files h'.files
        m.source m.dest b) ∧
      DocumentsInPlace base (h.operationName h.operations) s p h'.files := by
  obtain ⟨hplans, -⟩ := plans_of_plan hplan
  obtain ⟨_, copies, -, hcopies, hassemble⟩ := plan_eq_ok.1 hplan
  obtain rfl : p.copies = copies := (congrArg (fun q => q.1.copies) hassemble).symm
  have hreads := (reads_of_planCopies hcopies).2.2
  have hdest := fun m hm => exists_names_of_plans (c := m) hplans hassets hm
  rw [instantiate_of_plan_ok hplan] at hrun
  generalize hop₀ : h.operationName h.operations = op at hop ⊢
  have hbefore : Anchored (Instantiation.start h ids').host.files s.layout base := hanchored
  have hmedia := attains_copies hbefore hop hop₀ hdest hreads
  cases hexecute : execute s p (Instantiation.start h ids') with
  | error e c => simp [hexecute] at hrun
  | ok u c =>
    simp only [hexecute] at hrun
    cases hrun
    rw [execute_eq] at hexecute
    obtain ⟨_, c₁, hfirst, hrest⟩ := Action.bind_eq_ok.1 hexecute
    have hcopied := hmedia.ok (.refl hbefore) hfirst
    have hc₁ := hmedia.advances (.refl hbefore) hfirst
    have hop₁ : c₁.journal.operation = op := hc₁.operation.trans hop₀
    have hwrites : Attains (IsLasting base op) s base c₁ _ _ := attains_writeAll hop hop₁ p
    have hdocuments := hwrites.ok (.refl hc₁.anchored) hrest
    have hc := hwrites.advances (.refl hc₁.anchored) hrest
    have hop₂ : SparesJournal (IsLasting base op) base c.journal.operation :=
      sparesJournal_isLasting hop (hc.operation.trans hop₁)
    obtain ⟨-, hended⟩ := spares_conclude hc.anchored hop₂
    refine ⟨rfl, fun m hm => ?_, hdocuments.spares hended⟩
    obtain ⟨b, hb⟩ := hcopied m hm
    exact ⟨b, hb.spares (hc.spares.trans hended)⟩

end Instantiation

end AudioProject
