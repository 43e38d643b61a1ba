import AudioProject.Proofs.Instantiation.Journaling
import AudioProject.Proofs.Instantiation.Media
import AudioProject.Proofs.Staging.Recovery

/-
  No operation that returned looks as if it had crashed, as long as its journal could be written,
  with one exception: a commit that is stopped by a document which cannot be written, after others
  were, leaves its journal in progress. `journals_end` says so of all commits and instantiations,
  and `halted_looks_crashed` is such a commit.
-/

namespace AudioProject

open FileTree Store Staging Session

section Commits

variable {base : Location} {x : Session}

/-- A document cannot be written, and others were before it. -/
def Session.Stalls (x : Session) : Prop :=
  ∃ e y, commitAll x = .error (.store e) y ∧ y.staging ≠ x.staging

/-- The journal of the next operation of a session ends cleanly in a commit. -/
def Session.CommitEndsCleanly (x : Session) : Prop :=
  Journal.EndsCleanly x.store.layout x.store.keepJournals x.nextOperation x.host.files
    (commitAll.after x).host.files

theorem Session.Closed.endsCleanly {xs : List Session} {ws : List WrittenRecord} {y : Session}
    (h : Closed base x xs ws y) (hx : AnchoredAt base x) (hop : '/' ∉ x.nextOperation.toList)
    (hnew : x.host.files.isFile (x.store.layout.journal x.nextOperation) = false) :
    Journal.EndsCleanly x.store.layout x.store.keepJournals x.nextOperation x.host.files
      y.host.files := by
  have hsited := h.anchored.sited
  rw [h.writes.store.1] at hsited
  obtain ⟨was, hfiled, hended, hgone⟩ := h.file
  exact .of_filed hx.sited hsited hop h.others hnew hfiled hended hgone

theorem commitEndsCleanly (hanchored : AnchoredAt base x) (hkeyed : x.staging.IsKeyed)
    (hop : '/' ∉ x.nextOperation.toList)
    (hnew : x.host.files.isFile (x.store.layout.journal x.nextOperation) = false)
    (hwritten : ∀ e y, commitAll x ≠ .error (.journal e) y) (hstalls : ¬ x.Stalls) :
    x.CommitEndsCleanly := by
  have houtcome := outcome_commitAll hanchored hkeyed hop hnew
  unfold CommitEndsCleanly Action.after
  have hfile := (hanchored.sited.filed_none_iff hop).2 hnew
  cases h : commitAll x with
  | ok counts y =>
    rw [h] at houtcome
    cases houtcome with
    | idle =>
      exact .of_filed hanchored.sited hanchored.sited hop (fun _ _ _ => rfl) hnew hfile (by simp)
        (by simp)
    | done hclosed => exact hclosed.endsCleanly hanchored hop hnew
  | error e y =>
    rw [h] at houtcome
    cases houtcome with
    | unresolved hclosed => exact hclosed.endsCleanly hanchored hop hnew
    | journal _ => exact absurd h (hwritten _ _)
    | @store e ws _ hrecord _ =>
      -- nothing was written, so nothing was journaled
      have hws : ws = [] := by
        by_contra hws
        have hwrites := hrecord.writes
        rw [List.append_nil] at hwrites
        exact hstalls ⟨e, y, h, fun hsame => hws (hwrites.staging_eq_iff.1 hsame)⟩
      subst hws
      have hsited := hrecord.anchored.sited
      rw [hrecord.writes.store.1] at hsited
      have hnone := hrecord.file
      unfold journaled at hnone
      rw [if_pos rfl] at hnone
      exact .of_filed hanchored.sited hsited hop hrecord.others hnew hnone (by simp) (by simp)

theorem not_commitEndsCleanly (hanchored : AnchoredAt base x) (hkeyed : x.staging.IsKeyed)
    (hop : '/' ∉ x.nextOperation.toList)
    (hnew : x.host.files.isFile (x.store.layout.journal x.nextOperation) = false)
    (hnow : x.host.now.Survives) (hstalls : x.Stalls) : ¬ x.CommitEndsCleanly := by
  obtain ⟨e, y, h, hstaging⟩ := hstalls
  have houtcome := outcome_commitAll hanchored hkeyed hop hnew
  rw [h] at houtcome
  unfold CommitEndsCleanly
  rw [Action.after_of_error h]
  cases houtcome with
  | @store _ ws _ hrecord _ =>
    have hwrites := hrecord.writes
    rw [List.append_nil] at hwrites
    have hws : ws ≠ [] := fun hws => hstaging (hwrites.staging_eq_iff.2 hws)
    have hsited := hrecord.anchored.sited
    rw [hrecord.writes.store.1] at hsited
    have hfile := hrecord.file
    unfold journaled at hfile
    rw [if_neg hws] at hfile
    exact Journal.not_endsCleanly hsited hop hfile (lasting_journalOf hnow ws) rfl

end Commits

/-- Whatever an operation comes to whose journal can be written and deleted: it does not look as if
it had crashed, unless it is a commit that a document stopped which could not be written when others
had been. Such a commit does. -/
theorem journals_end (base : Location) :
    (∀ x : Session, AnchoredAt base x → x.staging.IsKeyed →
      '/' ∉ x.nextOperation.toList →
      x.host.files.isFile (x.store.layout.journal x.nextOperation) = false →
      (∀ e y, commitAll x ≠ .error (.journal e) y) →
        (¬ x.Stalls → x.CommitEndsCleanly) ∧
          (x.Stalls → x.host.now.Survives → ¬ x.CommitEndsCleanly)) ∧
    ∀ (s : Store) (probing : Bool) (r : Instantiation.Request) (h : Host),
      Anchored h.files s.layout base → Settings.checkAssetsDir s.layout.assetsDir = .ok () →
      '/' ∉ (h.operationName h.operations).toList →
      h.files.isFile (s.layout.journal (h.operationName h.operations)) = false →
      Instantiation.JournalKept s probing r h →
        Journal.EndsCleanly s.layout s.keepJournals (h.operationName h.operations) h.files
          ((Instantiation.instantiate s probing r).after h).files :=
  ⟨fun _ hanchored hkeyed hop hnew hwritten =>
    ⟨commitEndsCleanly hanchored hkeyed hop hnew hwritten, fun hstalls hnow =>
      not_commitEndsCleanly hanchored hkeyed hop hnew hnow hstalls⟩,
    fun _ _ _ _ hanchored hassets hop hnew hkept =>
      Instantiation.instantiate_endsCleanly hanchored hassets hop hnew hkept⟩

/-! ### A commit that comes through, and one that does not -/

/-- The instantiation of the peal journals every file, and closes its journal. -/
theorem journalKept_peal :
    Instantiation.JournalKept Instantiation.shop false Instantiation.peal
      Instantiation.towerHost where
  written := by
    intro p ids hplan e c
    obtain ⟨rfl, rfl⟩ :=
      EStateM.Result.ok.inj (Instantiation.plan_peal.symm.trans hplan)
    obtain ⟨c', hc'⟩ := Instantiation.execute_peal
    rw [hc']
    nofun
  closed := by
    intro p ids hplan
    obtain ⟨rfl, rfl⟩ :=
      EStateM.Result.ok.inj (Instantiation.plan_peal.symm.trans hplan)
    have hcloses : Action.isOk (Instantiation.closing Instantiation.shop (Instantiation.execute
        Instantiation.shop Instantiation.pealPlan (Instantiation.start Instantiation.towerHost
          Instantiation.pealGraft.2.2))) = true := by decide +kernel
    obtain ⟨_, h', h⟩ := Action.isOk_iff.1 hcloses
    exact ⟨h', h⟩

theorem journals_end_nested : AnchoredAt ["p"] nested ∧ nested.staging.IsKeyed ∧
    (∀ e y, commitAll nested ≠ .error (.journal e) y) ∧ ¬ nested.Stalls ∧
    nested.CommitEndsCleanly ∧
    Instantiation.JournalKept Instantiation.shop false Instantiation.peal
      Instantiation.towerHost ∧
    Journal.EndsCleanly Instantiation.shop.layout Instantiation.shop.keepJournals "op"
      Instantiation.towerHost.files
      ((Instantiation.instantiate Instantiation.shop false Instantiation.peal).after
        Instantiation.towerHost).files := by
  have hruns : Action.isOk (commitAll nested) = true := by decide +kernel
  have hok : ∀ e y, commitAll nested ≠ .error e y := by
    intro e y h
    obtain ⟨_, _, hok⟩ := Action.isOk_iff.1 hruns
    cases hok.symm.trans h
  have hstalls : ¬ nested.Stalls := fun ⟨e, y, h, _⟩ => hok _ y h
  refine ⟨anchored_loftFiles, isKeyed_nested, fun e => hok _, hstalls, ?_, journalKept_peal, ?_⟩
  · exact ((journals_end ["p"]).1 nested anchored_loftFiles isKeyed_nested (by decide)
      (by decide +kernel) fun e => hok _).1 hstalls
  · exact (journals_end ["p"]).2 Instantiation.shop false Instantiation.peal
      Instantiation.towerHost Instantiation.anchored_tower (by decide +kernel) (by decide +kernel) (by decide +kernel)
      journalKept_peal

/-- A folder whose place is taken. -/
def spare : PendingRecord := folderIn ⟨"spare", by decide⟩ loft.masters.eventFolder

/-- The loft with a file where the document of the folder should be. -/
def takenFiles : FileTree where
  nodes := ⟨loftFiles.nodes.toList ++ [(["p", "Metadata", "EventFolder", "spare.xml"],
    .file (loft.documentBytes [toll]))], by decide⟩

/-- A folder is staged that can be written, and behind it one that cannot. -/
def halted : Session :=
  ⟨{ loftHost with files := takenFiles }, loft,
    (({} : Staging).add .eventFolder outer none).add .eventFolder spare none⟩

theorem stalls_halted : halted.Stalls := by
  have hruns : (match commitAll halted with
      | .error (.store _) y => y.staging.size == 1
      | _ => false) = true := by decide +kernel
  split at hruns
  · next e y h =>
    refine ⟨e, y, h, fun hsame => ?_⟩
    rw [hsame] at hruns
    exact absurd hruns (by decide +kernel)
  · cases hruns

/-- The commit has returned, no write of its journal failed, and it looks as if it had crashed. -/
theorem halted_looks_crashed : (∀ e y, commitAll halted ≠ .error (.journal e) y) ∧
    ¬ halted.CommitEndsCleanly := by
  have hanchored : AnchoredAt ["p"] halted :=
    ⟨.of_keys (by decide +kernel) (by decide +kernel), by decide +kernel, by decide +kernel⟩
  have houter : (({} : Staging).add .eventFolder outer none).IsKeyed :=
    IsKeyed.stage (s := loft) (k := .eventFolder) (r := outer) (Fits.empty loft).keyed rfl
  have hkeyed : halted.staging.IsKeyed :=
    IsKeyed.stage (s := loft) (k := .eventFolder) (r := spare) houter rfl
  refine ⟨fun e y h => ?_, not_commitEndsCleanly hanchored hkeyed (by decide) (by decide +kernel)
    (by decide +kernel) stalls_halted⟩
  obtain ⟨e', y', hstore, -⟩ := stalls_halted
  rw [hstore] at h
  cases h

end AudioProject
