import AudioProject.Proofs.Instantiation.Documents
import AudioProject.Proofs.Sparing

/-
  An instantiation spares the files that are there. Each step of its run makes a file where none
  was, or none, and notes no other (`Advances`); so undoing the run takes away none that was there
  before it, and one that goes well has replaced none: `spares_instantiate`.
-/

namespace AudioProject.Instantiation

open FileTree Store

variable {P : Location → Prop} {s : Store} {base : Location} {op : String} {names : List String}
  {t t' : FileTree} {c c' c'' : Run} {path : Path}

/-! ## Media -/

theorem isFree_of_anchored (h : Anchored t s.layout base) (hassets : IsAssets names)
    (hhas : t.has (s.layout.root.descend names) = false) :
    IsFree t (s.layout.root.descend names) (base ++ names) := by
  intro t₁ j hdirs hj
  obtain ⟨rfl, hnone⟩ := h.free hassets.plain hhas hdirs hj
  exact ⟨rfl, hnone⟩

/-- A copy of media spares files, whether it comes about or not. -/
theorem spares_copyFile {source dest : Path} {l : Location} (hfree : IsFree t dest l) :
    Spares P t ((copyFile source dest).after t) := by
  cases hcopy : copyFile source dest t with
  | ok u t' =>
    rw [Action.after_of_ok hcopy]
    obtain ⟨hnone, b, ls, hcreates, -, -⟩ := creates_of_isFree hfree hcopy
    exact .of_free hcreates.keeps hnone
  | error e t' =>
    rw [Action.after_of_error hcopy]
    exact .of_keeps ((keeps_of_isFree hfree hcopy).mono fun _ _ => trivial)

/-! ## Parts of a run -/

/-- A run has gone on, the files at the places `P` have been spared, and what was noted on the way
is new at such a place. -/
structure Advances (P : Location → Prop) (s : Store) (base : Location) (c c' : Run) : Prop where
  anchored : Anchored c'.host.files s.layout base
  operation : c'.journal.operation = c.journal.operation
  spares : Spares P c.host.files c'.host.files
  new : ∀ p ∈ c'.created, p ∈ c.created ∨
    ∃ j, c'.host.files.locate p = .ok j ∧ (P j → c.host.files.contentAt? j = none)

/-- A part of a run spares files, however far it gets. -/
def IsSteady (P : Location → Prop) (s : Store) (base : Location) (op : String)
    (x : Action Run Error Unit) : Prop :=
  ∀ c, Anchored c.host.files s.layout base → c.journal.operation = op →
    Advances P s base c (x.after c)

namespace Advances

theorem refl (h : Anchored c.host.files s.layout base) : Advances P s base c c :=
  ⟨h, rfl, .refl P _, fun _ hp => Or.inl hp⟩

theorem trans (h : Advances P s base c c') (h' : Advances P s base c' c'') :
    Advances P s base c c'' where
  anchored := h'.anchored
  operation := h'.operation.trans h.operation
  spares := h.spares.trans h'.spares
  new := by
    intro p hp
    rcases h'.new p hp with hp | ⟨j, hj, hnone⟩
    · refine (h.new p hp).imp id fun ⟨j, hj, hnone⟩ => ⟨j, Keeps.locate h'.spares hj, hnone⟩
    · refine Or.inr ⟨j, hj, fun hP => Option.eq_none_iff_forall_ne_some.2 fun b hb => ?_⟩
      -- a file there would have been spared
      have hcontent := h.spares.content hP hb
      rw [hnone hP] at hcontent
      cases hcontent

/-- Nothing was noted. -/
theorem unnoted (hanchored : Anchored t s.layout base) (hspares : Spares P c.host.files t) :
    Advances P s base c { c with host := { c.host with files := t } } :=
  ⟨hanchored, rfl, hspares, fun _ hp => Or.inl hp⟩

theorem append (hanchored : Anchored c.host.files s.layout base)
    (hop : SparesJournal P base c.journal.operation) (d : Journal.Deed) :
    Advances P s base c ((Run.append s.layout d).after c) := by
  let log : Journal := c.journal.record d c.host.now
  have hlog : SparesJournal P base log.operation := hop
  obtain ⟨hsaved, hspares⟩ := hanchored.save log hlog
  rw [after_append]
  exact ⟨hsaved, rfl, hspares, fun _ hp => Or.inl hp⟩

/-- A new file is noted and journaled. -/
theorem make (hanchored : Anchored t s.layout base) (hspares : Spares P c.host.files t)
    {j : Location} (hj : t.locate path = .ok j) (hnone : c.host.files.contentAt? j = none)
    (hop : SparesJournal P base c.journal.operation) (d : Journal.Deed) :
    Advances P s base c ((Run.append s.layout d).after (noted c path t)) := by
  have hnoted : Advances P s base c (noted c path t) :=
    ⟨hanchored, rfl, hspares, List.forall_mem_cons.2
      ⟨Or.inr ⟨j, hj, fun _ => hnone⟩, fun _ hp => Or.inl hp⟩⟩
  have hop' : SparesJournal P base (noted c path t).journal.operation := hop
  exact hnoted.trans (.append hnoted.anchored hop' d)

end Advances

namespace IsSteady

variable {x y : Action Run Error Unit}

theorem bind (hx : IsSteady P s base op x) (hy : IsSteady P s base op y) :
    IsSteady P s base op (x >>= fun _ => y) := by
  intro c hanchored hop
  have hfirst := hx c hanchored hop
  refine Action.after_bind (R := Advances P s base) .trans hfirst fun _ c' h => ?_
  rw [Action.after_of_ok h] at hfirst
  exact hy c' hfirst.anchored (hfirst.operation.trans hop)

theorem forM {α : Type} {x : α → Action Run Error Unit} {as : List α}
    (hx : ∀ a ∈ as, IsSteady P s base op (x a)) : IsSteady P s base op (as.forM x) := by
  induction as with
  | nil => exact fun _ hanchored _ => .refl hanchored
  | cons a as ih =>
    exact (hx a List.mem_cons_self).bind (ih fun b hb => hx b (List.mem_cons_of_mem _ hb))

theorem append (hop : SparesJournal P base op) (d : Journal.Deed) :
    IsSteady P s base op (Run.append s.layout d) := by
  rintro c hanchored rfl
  exact .append hanchored hop d

theorem writeObjects (hdrafts : SparesDrafts P base) (hop : SparesJournal P base op)
    (k : ObjectClass) (id : ObjectId) (os : List Object) :
    IsSteady P s base op (writeObjects s k id os) := by
  rintro c hanchored rfl
  obtain ⟨hwritten, hspares⟩ := hanchored.writeDocument hdrafts os
  have hnoted : ∀ {path t}, s.writeDocument os c.host.files = .ok path t →
      Advances P s base c
        ((Run.append s.layout (.objectWrite k.name id path)).after (noted c path t)) := by
    intro path t hwrite
    rw [Action.after_of_ok hwrite] at hwritten hspares
    obtain ⟨-, j, hj, hnone⟩ := document_comes hanchored hdrafts hwrite
    exact .make hwritten hspares hj hnone hop _
  cases h : Instantiation.writeObjects s k id os c with
  | ok u c' =>
    obtain ⟨path, t, hwrite, rfl⟩ := writeObjects_eq_ok h
    rw [Action.after_of_ok h]
    exact hnoted hwrite
  | error e c' =>
    rw [Action.after_of_error h]
    rcases writeObjects_eq_error h with ⟨e', t, hwrite, rfl⟩ | ⟨path, t, hwrite, rfl⟩
    · rw [Action.after_of_error hwrite] at hwritten hspares
      exact .unnoted hwritten hspares
    · exact hnoted hwrite

theorem copyMedia {p : PlannedCopy} (hop : SparesJournal P base op)
    (hdest : p.dest = s.layout.root.descend names) (hassets : IsAssets names) :
    IsSteady P s base op (copyMedia s.layout p) := by
  rintro c hanchored rfl
  cases hreuse : p.reuse with
  | true =>
    rw [copyMedia_of_reuse hreuse]
    exact .refl hanchored
  | false =>
    have hwell := wellFormed_copyFile hanchored.well p.source p.dest
    have hcopied : c.host.files.has p.dest = false →
        Spares P c.host.files ((copyFile p.source p.dest).after c.host.files) := by
      intro hhas
      rw [hdest] at hhas ⊢
      exact spares_copyFile (isFree_of_anchored hanchored hassets hhas)
    have hnoted : ∀ {t}, c.host.files.has p.dest = false →
        copyFile p.source p.dest c.host.files = .ok () t → Advances P s base c
          ((Run.append s.layout (.mediaCopy p.source p.dest)).after (noted c p.dest t)) := by
      intro t hhas hcopy
      have hspares := hcopied hhas
      rw [Action.after_of_ok hcopy] at hwell hspares
      rw [hdest] at hhas hcopy
      obtain ⟨hnone, b, ls, hcreates, -⟩ :=
        creates_of_isFree (isFree_of_anchored hanchored hassets hhas) hcopy
      exact .make (hanchored.spares hspares hwell) hspares (hdest ▸ hcreates.located) hnone hop _
    cases h : Instantiation.copyMedia s.layout p c with
    | ok u c' =>
      obtain ⟨hhas, t, hcopy, rfl⟩ := copyMedia_eq_ok hreuse h
      rw [Action.after_of_ok h]
      exact hnoted hhas hcopy
    | error e c' =>
      rw [Action.after_of_error h]
      rcases copyMedia_eq_error hreuse h with rfl | ⟨hhas, ⟨e', t, hcopy, rfl⟩ | ⟨t, hcopy, rfl⟩⟩
      · exact .refl hanchored
      · have hspares := hcopied hhas
        rw [Action.after_of_error hcopy] at hwell hspares
        exact .unnoted (hanchored.spares hspares hwell) hspares
      · exact hnoted hhas hcopy

end IsSteady

/-- The part of a run that comes behind the media. -/
def writeAll (s : Store) (p : Plan) : Action Run Error Unit := do
  Run.append s.layout (.checkpoint "media")
  p.audioFiles.forM fun o => writeObjects s o.objectClass o.id [o]
  writeObjects s .event p.eventId p.event.objects

theorem execute_eq (s : Store) (p : Plan) :
    execute s p = p.copies.forM (copyMedia s.layout) >>= fun _ => writeAll s p := rfl

theorem isSteady_copies {p : Plan} (hop : SparesJournal P base op)
    (hdest : ∀ m ∈ p.copies, ∃ names, m.dest = s.layout.root.descend names ∧ IsAssets names) :
    IsSteady P s base op (p.copies.forM (copyMedia s.layout)) := by
  refine .forM fun m hm => ?_
  obtain ⟨names, hnames, hassets⟩ := hdest m hm
  exact .copyMedia hop hnames hassets

theorem isSteady_writeAll (hdrafts : SparesDrafts P base) (hop : SparesJournal P base op)
    (p : Plan) : IsSteady P s base op (writeAll s p) :=
  (IsSteady.append hop _).bind
    (.bind (.forM fun o _ => .writeObjects hdrafts hop o.objectClass o.id [o])
      (.writeObjects hdrafts hop .event p.eventId p.event.objects))

theorem isSteady_execute {p : Plan} (hdrafts : SparesDrafts P base) (hop : SparesJournal P base op)
    (hdest : ∀ m ∈ p.copies, ∃ names, m.dest = s.layout.root.descend names ∧ IsAssets names) :
    IsSteady P s base op (execute s p) :=
  (isSteady_copies hop hdest).bind (isSteady_writeAll hdrafts hop p)

/-! ## The ends of a run -/

theorem spares_conclude (hanchored : Anchored c.host.files s.layout base)
    (hop : SparesJournal P base c.journal.operation) :
    Anchored (conclude s c).files s.layout base ∧ Spares P c.host.files (conclude s c).files := by
  let log : Journal := c.journal.finish .committed c.host.now
  have hlog : SparesJournal P base log.operation := hop
  rw [conclude_eq]
  exact hanchored.close log hlog s.keepJournals

/-- Undoing a run that has noted what it made takes away none of the files of its start. -/
theorem spares_rollBack (h : Advances P s base c c') (hnew : c.created = [])
    (hop : SparesJournal P base c.journal.operation) :
    Anchored (rollBack s c').files s.layout base ∧
      Spares P c.host.files (rollBack s c').files := by
  have hclears : Clears c'.created c'.host.files c'.cleared.files := clears_removeAll _ _
  have hdirs : Keeps (fun _ => False) c'.host.files c'.cleared.files :=
    .of_sameDirectories hclears.directories (by simp)
  have hanchored := h.anchored.keeps hdirs (hclears.well h.anchored.well)
  have hspares : Spares P c.host.files c'.cleared.files := by
    refine ⟨hdirs.current.trans h.spares.current, fun l hl =>
      hdirs.directory l (h.spares.directory l hl), fun l hl => ?_⟩
    rw [hclears.others l, Keeps.content h.spares l hl]
    intro p hp hlocate
    rcases h.new p hp with hold | ⟨j, hj, hnone⟩
    · rw [hnew] at hold
      cases hold
    · obtain rfl : l = j := Except.ok.inj (hlocate.symm.trans hj)
      exact hl.2 (hnone hl.1)
  let log : Journal := c'.journal.finish .rolledBack c'.host.now
  have hlog : SparesJournal P base log.operation := by
    show SparesJournal P base c'.journal.operation
    rw [h.operation]
    exact hop
  obtain ⟨hended, hrest⟩ : Anchored (rollBack s c').files s.layout base ∧
      Spares P c'.cleared.files (rollBack s c').files := by
    rw [rollBack_eq]
    split
    · exact hanchored.save log hlog
    · exact hanchored.delete log hlog
  exact ⟨hended, hspares.trans hrest⟩

/-! ## The instantiation -/

/-- An instantiation spares files, however it ends. -/
theorem spares_instantiate {probing : Bool} {r : Request} {h : Host}
    (hanchored : Anchored h.files s.layout base)
    (hassets : Settings.checkAssetsDir s.layout.assetsDir = .ok ())
    (hdrafts : SparesDrafts P base)
    (hop : SparesJournal P base (h.operationName h.operations)) :
    Anchored ((instantiate s probing r).after h).files s.layout base ∧
      Spares P h.files ((instantiate s probing r).after h).files := by
  cases hplan : plan s h.files probing r h.ids with
  | error e ids =>
    rw [Action.after_of_error (instantiate_of_plan_error hplan)]
    exact ⟨hanchored, .refl P _⟩
  | ok p ids =>
    have hdest := fun m hm => exists_names_of_plans (c := m) (plans_of_plan hplan).1 hassets hm
    have hrun := isSteady_execute hdrafts hop hdest (Instantiation.start h ids) hanchored rfl
    rw [after_of_plan_ok hplan]
    cases hexecute : execute s p (Instantiation.start h ids) with
    | ok u c =>
      rw [Action.after_of_ok hexecute] at hrun
      have hop' : SparesJournal P base c.journal.operation := by
        rw [hrun.operation]
        exact hop
      obtain ⟨hended, hspares⟩ := spares_conclude hrun.anchored hop'
      exact ⟨hended, hrun.spares.trans hspares⟩
    | error e c =>
      rw [Action.after_of_error hexecute] at hrun
      exact spares_rollBack hrun rfl hop

end AudioProject.Instantiation
