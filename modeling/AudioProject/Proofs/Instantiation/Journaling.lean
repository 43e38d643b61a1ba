import AudioProject.Proofs.Instantiation.Sparing
import AudioProject.Proofs.Journal.Ending

/-
  The journal of an instantiation. Each part of a run leaves the journals of other operations as
  they are, notes no path that leads to one, and only adds steps to its own (`Minds`). So undoing
  the run leaves journals alone as well, and however the run ends, the journal is finished or its
  file is gone as long as journals can be written and deleted: `instantiate_endsCleanly`.
-/

namespace AudioProject.Instantiation

open FileTree AudioProject.Path Store Journal

variable {s : Store} {r : Request} {base : Location} {op : String} {names : List String}
  {t t' : FileTree} {c c' c'' : Run} {path : Path} {probing : Bool} {h h' : Host}

/-! ## Parts of a run -/

/-- A path below the project, but not into the directory of journals. -/
def IsOutside (l : Layout) (p : Path) : Prop :=
  ∃ names, p = l.root.descend names ∧ (∀ n ∈ names, IsName n) ∧ ¬ [toolDirName, "ops"] <+: names

theorem IsPlanned.isOutside {l : Layout} (h : IsPlanned names) :
    IsOutside l (l.root.descend names) :=
  ⟨names, rfl, h.plain, h.not_journal⟩

theorem IsOutside.not_inJournals {l : Layout} {place : Location} (h : IsOutside l path)
    (hroot : t.walk l.root = .ok base) (hplace : t.locate path = .ok place) :
    ¬ InJournals base place := by
  obtain ⟨names, rfl, hnames, hjournal⟩ := h
  rw [eq_of_locate_descend hnames hroot hplace, inJournals_append]
  exact hjournal

/-- A run has gone on and minded the journals. -/
structure Minds (s : Store) (base : Location) (op : String) (c c' : Run) : Prop
    extends Advances (fun _ => False) s base c c' where
  others : Agree base op c.host.files c'.host.files
  outside : ∀ p ∈ c'.created, p ∈ c.created ∨ IsOutside s.layout p
  steps : c.journal.steps <+: c'.journal.steps

/-- A part of a run minds the journals, however far it gets. -/
def IsMindful (s : Store) (base : Location) (op : String) (x : Action Run Error Unit) : Prop :=
  ∀ c, Anchored c.host.files s.layout base → c.journal.operation = op →
    Minds s base op c (x.after c)

theorem sparesJournal_nowhere (hop : '/' ∉ op.toList) :
    SparesJournal (fun _ => False) base op := ⟨hop, fun h => h⟩

namespace Minds

theorem refl (h : Anchored c.host.files s.layout base) : Minds s base op c c :=
  ⟨.refl h, fun _ _ _ => rfl, fun _ hp => Or.inl hp, List.prefix_refl _⟩

theorem trans (h : Minds s base op c c') (h' : Minds s base op c' c'') : Minds s base op c c'' where
  toAdvances := h.toAdvances.trans h'.toAdvances
  others := h.others.trans h'.others
  outside := fun p hp => (h'.outside p hp).elim (h.outside p) Or.inr
  steps := h.steps.trans h'.steps

theorem append (hanchored : Anchored c.host.files s.layout base) (hop : '/' ∉ op.toList)
    (hoperation : c.journal.operation = op) (d : Journal.Deed) :
    Minds s base op c ((Run.append s.layout d).after c) where
  toAdvances := .append hanchored (sparesJournal_nowhere (hoperation ▸ hop)) d
  others := by
    subst hoperation
    have hsited : Sited c.host.files s.layout base := ⟨hanchored.well, hanchored.root⟩
    rw [after_append]
    exact hsited.agree_save (j := c.journal.record d c.host.now) hop
  outside := by
    rw [after_append]
    exact fun p hp => Or.inl hp
  steps := by
    rw [after_append]
    exact List.prefix_append _ _

/-- Nothing was noted. -/
theorem unnoted (hanchored : Anchored t s.layout base)
    (hspares : Spares (fun _ => False) c.host.files t)
    (hjournals : Keeps (InJournals base) c.host.files t) :
    Minds s base op c { c with host := { c.host with files := t } } :=
  ⟨.unnoted hanchored hspares, .of_keeps hjournals, fun _ hp => Or.inl hp, List.prefix_refl _⟩

/-- A new file is noted and journaled. -/
theorem make (hanchored : Anchored t s.layout base)
    (hspares : Spares (fun _ => False) c.host.files t)
    (hjournals : Keeps (InJournals base) c.host.files t) (houtside : IsOutside s.layout path)
    (hlocate : ∃ j, t.locate path = .ok j) (hop : '/' ∉ op.toList)
    (hoperation : c.journal.operation = op) (d : Journal.Deed) :
    Minds s base op c ((Run.append s.layout d).after (noted c path t)) := by
  obtain ⟨j, hj⟩ := hlocate
  have hnoted : Minds s base op c (noted c path t) :=
    ⟨⟨hanchored, rfl, hspares, List.forall_mem_cons.2
        ⟨Or.inr ⟨j, hj, False.elim⟩, fun _ hp => Or.inl hp⟩⟩,
      .of_keeps hjournals, List.forall_mem_cons.2 ⟨Or.inr houtside, fun _ hp => Or.inl hp⟩,
      List.prefix_refl _⟩
  exact hnoted.trans (.append hnoted.anchored hop hoperation d)

end Minds

namespace IsMindful

variable {x y : Action Run Error Unit}

theorem bind (hx : IsMindful s base op x) (hy : IsMindful s base op y) :
    IsMindful s base op (x >>= fun _ => y) := by
  intro c hanchored hop
  have hfirst := hx c hanchored hop
  refine Action.after_bind (R := Minds s base op) .trans hfirst fun _ c' h => ?_
  rw [Action.after_of_ok h] at hfirst
  exact hy c' hfirst.anchored (hfirst.operation.trans hop)

theorem forM {α : Type} {x : α → Action Run Error Unit} {as : List α}
    (hx : ∀ a ∈ as, IsMindful s base op (x a)) : IsMindful s base op (as.forM x) := by
  induction as with
  | nil => exact fun _ hanchored _ => .refl hanchored
  | cons a as ih =>
    exact (hx a List.mem_cons_self).bind (ih fun b hb => hx b (List.mem_cons_of_mem _ hb))

theorem append (hop : '/' ∉ op.toList) (d : Journal.Deed) :
    IsMindful s base op (Run.append s.layout d) :=
  fun _ hanchored hoperation => .append hanchored hop hoperation d

theorem writeObjects (hop : '/' ∉ op.toList) (k : ObjectClass) (id : ObjectId)
    (os : List Object) : IsMindful s base op (writeObjects s k id os) := by
  intro c hanchored hoperation
  have hdrafts : SparesDrafts (fun _ => False) base := fun _ _ h => h
  obtain ⟨hwritten, hspares⟩ := hanchored.writeDocument hdrafts os
  have hjournals := hanchored.journals_writeDocument os
  have hnoted : ∀ {path t}, s.writeDocument os c.host.files = .ok path t →
      Minds s base op c
        ((Run.append s.layout (.objectWrite k.name id path)).after (noted c path t)) := by
    intro path t hwrite
    rw [Action.after_of_ok hwrite] at hwritten hspares hjournals
    obtain ⟨-, j, hj, -⟩ := document_comes hanchored hdrafts hwrite
    refine .make hwritten hspares hjournals ?_ ⟨j, hj⟩ hop hoperation _
    cases os with
    | nil => cases hwrite
    | cons o os =>
      obtain ⟨dir, -, hdir, rfl, -⟩ := objectPath?_eq_some (writeDocument_eq_ok hwrite).1
      exact (isPlanned_documentNames hdir o.id).isOutside
  cases h : Instantiation.writeObjects s k id os c with
  | ok u c' =>
    obtain ⟨path, t, hwrite, rfl⟩ := writeObjects_eq_ok h
    rw [Action.after_of_ok h]
    exact hnoted hwrite
  | error e c' =>
    rw [Action.after_of_error h]
    rcases writeObjects_eq_error h with ⟨e', t, hwrite, rfl⟩ | ⟨path, t, hwrite, rfl⟩
    · rw [Action.after_of_error hwrite] at hwritten hspares hjournals
      exact .unnoted hwritten hspares hjournals
    · exact hnoted hwrite

/-- A copy of media does not touch journals. -/
theorem journals_copyFile {source dest : Path} {l : Location} (hfree : IsFree t dest l)
    (hl : ¬ InJournals base l) : Keeps (InJournals base) t ((copyFile source dest).after t) := by
  cases hcopy : copyFile source dest t with
  | ok u t' =>
    rw [Action.after_of_ok hcopy]
    obtain ⟨-, b, ls, hcreates, -, -⟩ := creates_of_isFree hfree hcopy
    refine hcreates.keeps.mono fun j hj => ?_
    rintro rfl
    exact hl hj
  | error e t' =>
    rw [Action.after_of_error hcopy]
    exact (keeps_of_isFree hfree hcopy).mono fun _ _ => trivial

theorem copyMedia {p : PlannedCopy} (hop : '/' ∉ op.toList)
    (hdest : p.dest = s.layout.root.descend names) (hassets : IsAssets names) :
    IsMindful s base op (copyMedia s.layout p) := by
  intro c hanchored hoperation
  cases hreuse : p.reuse with
  | true =>
    rw [copyMedia_of_reuse hreuse]
    exact .refl hanchored
  | false =>
    have hplanned := hassets.isPlanned
    have hcopied : c.host.files.has p.dest = false →
        Anchored ((copyFile p.source p.dest).after c.host.files) s.layout base ∧
        Spares (fun _ => False) c.host.files ((copyFile p.source p.dest).after c.host.files) ∧
        Keeps (InJournals base) c.host.files
          ((copyFile p.source p.dest).after c.host.files) := by
      intro hhas
      rw [hdest] at hhas ⊢
      have hfree := isFree_of_anchored hanchored hassets hhas
      have hspares : Spares (fun _ => False) c.host.files
          ((copyFile p.source _).after c.host.files) := spares_copyFile hfree
      refine ⟨hanchored.spares hspares (wellFormed_copyFile hanchored.well _ _), hspares,
        journals_copyFile hfree fun hin => hplanned.not_journal (inJournals_append.1 hin)⟩
    have hnoted : ∀ {t}, c.host.files.has p.dest = false →
        copyFile p.source p.dest c.host.files = .ok () t → Minds s base op c
          ((Run.append s.layout (.mediaCopy p.source p.dest)).after (noted c p.dest t)) := by
      intro t hhas hcopy
      obtain ⟨hanchored', hspares, hjournals⟩ := hcopied hhas
      rw [Action.after_of_ok hcopy] at hanchored' hspares hjournals
      rw [hdest] at hhas hcopy ⊢
      obtain ⟨-, b, ls, hcreates, -⟩ :=
        creates_of_isFree (isFree_of_anchored hanchored hassets hhas) hcopy
      exact .make hanchored' hspares hjournals hplanned.isOutside ⟨_, hcreates.located⟩ hop
        hoperation _
    cases h : Instantiation.copyMedia s.layout p c with
    | ok u c' =>
      obtain ⟨hhas, t, hcopy, rfl⟩ := copyMedia_eq_ok hreuse h
      rw [Action.after_of_ok h]
      exact hnoted hhas hcopy
    | error e c' =>
      rw [Action.after_of_error h]
      rcases copyMedia_eq_error hreuse h with rfl | ⟨hhas, ⟨e', t, hcopy, rfl⟩ | ⟨t, hcopy, rfl⟩⟩
      · exact .refl hanchored
      · obtain ⟨hanchored', hspares, hjournals⟩ := hcopied hhas
        rw [Action.after_of_error hcopy] at hanchored' hspares hjournals
        exact .unnoted hanchored' hspares hjournals
      · exact hnoted hhas hcopy

theorem copies {p : Plan} (hop : '/' ∉ op.toList)
    (hdest : ∀ m ∈ p.copies, ∃ names, m.dest = s.layout.root.descend names ∧ IsAssets names) :
    IsMindful s base op (p.copies.forM (Instantiation.copyMedia s.layout)) := by
  refine .forM fun m hm => ?_
  obtain ⟨names, hnames, hassets⟩ := hdest m hm
  exact .copyMedia hop hnames hassets

theorem documents (hop : '/' ∉ op.toList) (p : Plan) : IsMindful s base op
    (p.audioFiles.forM (fun o => Instantiation.writeObjects s o.objectClass o.id [o]) >>= fun _ =>
      Instantiation.writeObjects s .event p.eventId p.event.objects) :=
  .bind (.forM fun o _ => .writeObjects hop o.objectClass o.id [o])
    (.writeObjects hop .event p.eventId p.event.objects)

theorem execute {p : Plan} (hop : '/' ∉ op.toList)
    (hdest : ∀ m ∈ p.copies, ∃ names, m.dest = s.layout.root.descend names ∧ IsAssets names) :
    IsMindful s base op (execute s p) :=
  (copies hop hdest).bind ((append hop _).bind (documents hop p))

end IsMindful

/-! ## The ends of a run -/

/-- A run that went well has journaled something. -/
theorem steps_ne_nil_of_execute {p : Plan} {u : Unit} (hop : '/' ∉ op.toList)
    (hdest : ∀ m ∈ p.copies, ∃ names, m.dest = s.layout.root.descend names ∧ IsAssets names)
    (hanchored : Anchored c.host.files s.layout base) (hoperation : c.journal.operation = op)
    (h : execute s p c = .ok u c') : c'.journal.steps ≠ [] := by
  obtain ⟨_, c₁, hcopies, h⟩ := Action.bind_eq_ok.1 h
  obtain ⟨_, c₂, hmark, h⟩ := Action.bind_eq_ok.1 h
  have h₁ := IsMindful.copies hop hdest c hanchored hoperation
  rw [Action.after_of_ok hcopies] at h₁
  have h₂ := Minds.append (d := .checkpoint "media") h₁.anchored hop (h₁.operation.trans hoperation)
  have hmarked : c₂.journal.steps ≠ [] := by
    rw [← Action.after_of_ok hmark, after_append]
    simp [Journal.record]
  rw [Action.after_of_ok hmark] at h₂
  have h₃ := IsMindful.documents hop p c₂ h₂.anchored
    (h₂.operation.trans (h₁.operation.trans hoperation))
  rw [Action.after_of_ok h] at h₃
  intro hnil
  exact hmarked (List.prefix_nil.1 (hnil ▸ h₃.steps))

/-- What closes the journal of a run, by how it has ended. -/
def closing (s : Store) :
    EStateM.Result Error Run Unit → EStateM.Result Journal.Error Host Unit
  | .ok _ c => (c.journal.finish .committed c.host.now).close s.layout s.keepJournals c.host
  | .error _ c =>
    (if s.keepJournals then (c.journal.finish .rolledBack c.host.now).save s.layout
      else (c.journal.finish .rolledBack c.host.now).delete s.layout) c.cleared

/-- No write of the journal of an instantiation fails, and neither does its deletion. -/
structure JournalKept (s : Store) (probing : Bool) (r : Request) (h : Host) : Prop where
  written : ∀ p ids, plan s h.files probing r h.ids = .ok p ids →
    ∀ e c, execute s p (start h ids) ≠ .error (.journal e) c
  closed : ∀ p ids, plan s h.files probing r h.ids = .ok p ids →
    ∃ h', closing s (execute s p (start h ids)) = .ok () h'

/-- A journal that is closed as it should be is finished, or its file is gone. -/
structure IsClosed (s : Store) (base : Location) (op : String) (t : FileTree) (h : Host) :
    Prop where
  sited : Sited h.files s.layout base
  others : Agree base op t h.files
  file : ∃ was, Filed h.files s.layout base op was ∧ (∀ j ∈ was, j.phase.isFinished = true) ∧
    (s.keepJournals = false → was = none)

/-- The last change to a journal is a write of it when it is finished, or the deletion. -/
theorem isClosed_of_last {j : Journal} (hs : Sited h.files s.layout base)
    (hop : '/' ∉ j.operation.toList) (hphase : j.phase.isFinished = true)
    (hlast : (if s.keepJournals then j.save s.layout else j.delete s.layout) h = .ok () h') :
    IsClosed s base j.operation h.files h' := by
  cases hkeep : s.keepJournals with
  | true =>
    rw [hkeep, if_pos rfl] at hlast
    obtain ⟨hkept, hholds⟩ := hs.save_ok hop hlast
    refine ⟨hkept.sited, fun i _ hi => hkept.others.content i hi, _, hholds.filed, ?_,
      by simp [hkeep]⟩
    intro j hj
    cases hj
    exact hphase
  | false =>
    rw [hkeep, if_neg (by simp)] at hlast
    obtain ⟨t, rfl, hkept, hholds⟩ := hs.delete_ok hop hlast
    exact ⟨hkept.sited, fun i _ hi => hkept.others.content i hi, _, hholds.filed, by simp, by simp⟩

/-- Undoing a run leaves journals alone, as none was noted. -/
theorem agree_cleared (hminds : Minds s base op c c') (hnew : c.created = []) :
    Sited c'.cleared.files s.layout base ∧ Agree base op c'.host.files c'.cleared.files := by
  have hclears : Clears c'.created c'.host.files c'.cleared.files := clears_removeAll _ _
  have hanchored := hminds.anchored
  refine ⟨⟨hclears.well hanchored.well, ?_⟩, fun j hj _ => hclears.others j fun p hp hplace => ?_⟩
  · exact (Keeps.of_sameDirectories (P := fun _ => False) hclears.directories (by simp)).walk
      hanchored.root
  · rcases hminds.outside p hp with hold | houtside
    · rw [hnew] at hold
      cases hold
    · exact houtside.not_inJournals hanchored.root hplace hj

/-- However a run ends, its journal is closed if the last change to it is made. -/
theorem isClosed_closing {p : Plan} (hop : '/' ∉ op.toList)
    (hdest : ∀ m ∈ p.copies, ∃ names, m.dest = s.layout.root.descend names ∧ IsAssets names)
    (hanchored : Anchored c.host.files s.layout base) (hoperation : c.journal.operation = op)
    (hnew : c.created = []) (hclosed : closing s (execute s p c) = .ok () h') :
    IsClosed s base op c.host.files h' := by
  have hminds := IsMindful.execute hop hdest c hanchored hoperation
  cases hexecute : execute s p c with
  | ok u c' =>
    rw [Action.after_of_ok hexecute] at hminds
    rw [hexecute] at hclosed
    obtain rfl : c'.journal.operation = op := hminds.operation.trans hoperation
    let j : Journal := c'.journal.finish .committed c'.host.now
    have hsteps : j.steps ≠ [] :=
      steps_ne_nil_of_execute hop hdest hanchored hoperation hexecute
    have hclose : j.close s.layout s.keepJournals c'.host = .ok () h' := hclosed
    rw [close_of_steps hsteps] at hclose
    have hend := isClosed_of_last (j := j) ⟨hminds.anchored.well, hminds.anchored.root⟩ hop rfl
      hclose
    exact ⟨hend.sited, hminds.others.trans hend.others, hend.file⟩
  | error e c' =>
    rw [Action.after_of_error hexecute] at hminds
    rw [hexecute] at hclosed
    obtain rfl : c'.journal.operation = op := hminds.operation.trans hoperation
    obtain ⟨hsited, hcleared⟩ := agree_cleared hminds hnew
    have hend := isClosed_of_last (j := c'.journal.finish .rolledBack c'.host.now) hsited hop rfl
      hclosed
    exact ⟨hend.sited, (hminds.others.trans hcleared).trans hend.others, hend.file⟩

theorem after_eq_of_closing {p : Plan} {ids : IdSupply}
    (hplan : plan s h.files probing r h.ids = .ok p ids)
    (hclosed : closing s (execute s p (start h ids)) = .ok () h') :
    (instantiate s probing r).after h = h' := by
  rw [after_of_plan_ok hplan]
  cases hexecute : execute s p (start h ids) with
  | ok u c =>
    rw [hexecute] at hclosed
    exact (conclude_eq s c).trans (Action.after_of_ok hclosed)
  | error e c =>
    rw [hexecute] at hclosed
    exact (rollBack_eq s c).trans (Action.after_of_ok hclosed)

/-- However an instantiation ends, it does not look as if it had crashed. -/
theorem instantiate_endsCleanly (hanchored : Anchored h.files s.layout base)
    (hassets : Settings.checkAssetsDir s.layout.assetsDir = .ok ())
    (hop : '/' ∉ (h.operationName h.operations).toList)
    (hnew : h.files.isFile (s.layout.journal (h.operationName h.operations)) = false)
    (hkept : JournalKept s probing r h) :
    EndsCleanly s.layout s.keepJournals (h.operationName h.operations) h.files
      ((instantiate s probing r).after h).files := by
  have hsited : Sited h.files s.layout base := ⟨hanchored.well, hanchored.root⟩
  cases hplan : plan s h.files probing r h.ids with
  | error e ids =>
    rw [Action.after_of_error (instantiate_of_plan_error hplan)]
    exact .of_filed hsited hsited hop (fun _ _ _ => rfl) hnew ((hsited.filed_none_iff hop).2 hnew)
      (by simp) (by simp)
  | ok p ids =>
    obtain ⟨h', hclosed⟩ := hkept.closed p ids hplan
    have hdest := fun m hm => exists_names_of_plans (c := m) (plans_of_plan hplan).1 hassets hm
    have hend := isClosed_closing (c := start h ids) hop hdest hanchored rfl rfl hclosed
    rw [after_eq_of_closing hplan hclosed]
    obtain ⟨was, hfiled, hended, hgone⟩ := hend.file
    exact .of_filed hsited hend.sited hop hend.others hnew hfiled hended hgone

end AudioProject.Instantiation
