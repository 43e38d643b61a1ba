import AudioProject.Proofs.Instantiation.Sparing
import AudioProject.Proofs.Staging.Durability

/-
  Files are never replaced. Every call of a session spares the files of its project that are neither
  journals nor drafts of documents (`Sheltered.call`), so they are there after any run of calls,
  whatever these came to (`files_stay`). Where something is at the path of a document, none of the
  writers of documents writes one (`Refuses`).
-/

namespace AudioProject

open FileTree Store Staging

/-! ## Where a document is refused -/

namespace Store

variable {s : Store} {t : FileTree} {o : Object} {path : Path}

theorem writeDocument_of_has (hpath : s.layout.objectPath? o.objectClass o.id = some path)
    (hhas : t.has path = true) (os : List Object) :
    s.writeDocument (o :: os) t = .error (.alreadyExists o.id) t := by
  rw [writeDocument_of_path hpath, if_pos hhas]

/-- A record is refused there too, for its class or for its document. -/
theorem commit_of_has (hpath : s.layout.objectPath? o.objectClass o.id = some path)
    (hhas : t.has path = true) (k : Kind) (os : List Object) :
    ∃ e, s.commit k (o :: os) t = .error e t ∧
      ((IndexEntry.ofObject? k o).isSome = true → e = .alreadyExists o.id) := by
  cases he : IndexEntry.ofObject? k o with
  | none =>
    obtain ⟨e, herror⟩ := commit_of_no_entry he s os t
    exact ⟨e, herror, by simp⟩
  | some entry =>
    refine ⟨.alreadyExists o.id, ?_, fun _ => rfl⟩
    rw [commit_of_entry he, writeDocument_of_has hpath hhas]

end Store

namespace Staging.Commit

variable {k : Kind} {r : PendingRecord} {c : Commit} {t : FileTree}

theorem write_of_ok {s : Store} {path : Path}
    (h : c.store.commit k r.objects c.host.files = .ok (s, path) t) :
    write k r c = .ok path { c with host := { c.host with files := t }, store := s } := by
  have hhost : onHost Error.store (Host.onFiles id (c.store.commit k r.objects)) c =
      .ok (s, path) { c with host := { c.host with files := t } } :=
    Action.within_eq_ok.2 ⟨_, Action.within_eq_ok.2 ⟨t, h, rfl⟩, rfl⟩
  unfold write
  rw [Action.bind_of_ok (get_eq_ok c), Action.bind_of_ok hhost]
  rfl

theorem write_of_error {e : Store.Error}
    (h : c.store.commit k r.objects c.host.files = .error e t) :
    write k r c = .error (.store e) { c with host := { c.host with files := t } } := by
  have hhost : onHost Error.store (Host.onFiles id (c.store.commit k r.objects)) c =
      .error (.store e) { c with host := { c.host with files := t } } :=
    Action.within_eq_error.2 ⟨_, _, Action.within_eq_error.2 ⟨_, t, h, rfl, rfl⟩, rfl, rfl⟩
  unfold write
  rw [Action.bind_of_ok (get_eq_ok c), Action.bind_of_error hhost]

end Staging.Commit

/-! ## Commits -/

section Commits

variable {P : Location → Prop} {l : Layout} {base : Location} {op : String} {t₀ : FileTree}

/-- A commit under way that has spared the files at the places `P`. -/
structure Sparing (P : Location → Prop) (l : Layout) (base : Location) (op : String)
    (t₀ : FileTree) (c : Commit) : Prop where
  layout : c.store.layout = l
  anchored : Anchored c.host.files l base
  operation : c.journal.operation = op
  spares : Spares P t₀ c.host.files

namespace Sparing

variable {c : Commit}

theorem append (h : Sparing P l base op t₀ c) (hop : SparesJournal P base op)
    (d : Journal.Deed) : Sparing P l base op t₀ ((Commit.append d).after c) := by
  let log : Journal := c.journal.record d c.host.now
  have hlog : SparesJournal P base log.operation := h.operation.symm ▸ hop
  obtain ⟨hanchored, hspares⟩ := h.anchored.save log hlog
  rw [Commit.after_append, h.layout]
  exact ⟨h.layout, hanchored, h.operation, h.spares.trans hspares⟩

theorem close (h : Sparing P l base op t₀ c) (hop : SparesJournal P base op)
    (p : Journal.Phase) : Sparing P l base op t₀ ((Commit.close p).after c) := by
  let log : Journal := c.journal.finish p c.host.now
  have hlog : SparesJournal P base log.operation := h.operation.symm ▸ hop
  obtain ⟨hanchored, hspares⟩ := h.anchored.close log hlog c.store.keepJournals
  rw [Commit.after_close, h.layout]
  exact ⟨h.layout, hanchored, h.operation, h.spares.trans hspares⟩

theorem write (h : Sparing P l base op t₀ c) (hdrafts : SparesDrafts P base) (k : Kind)
    (r : PendingRecord) : Sparing P l base op t₀ ((Commit.write k r).after c) := by
  obtain ⟨rfl, hanchored, hoperation, hspares⟩ := h
  obtain ⟨hmoved, hspared⟩ := hanchored.commit hdrafts k r.objects
  cases hcommit : c.store.commit k r.objects c.host.files with
  | error e t =>
    rw [Action.after_of_error hcommit] at hmoved hspared
    rw [Action.after_of_error (Commit.write_of_error hcommit)]
    exact ⟨rfl, hmoved, hoperation, hspares.trans hspared⟩
  | ok result t =>
    obtain ⟨s, path⟩ := result
    obtain ⟨e, -, rfl, -⟩ := commit_eq_ok hcommit
    rw [Action.after_of_ok hcommit] at hmoved hspared
    rw [Action.after_of_ok (Commit.write_of_ok hcommit)]
    exact ⟨rfl, hmoved, hoperation, hspares.trans hspared⟩

theorem commitRecord (h : Sparing P l base op t₀ c) (hdrafts : SparesDrafts P base)
    (hop : SparesJournal P base op) (k : Kind) (r : PendingRecord) :
    Sparing P l base op t₀ ((Commit.commitRecord k r).after c) := by
  unfold Commit.commitRecord
  refine Action.holds_after_bind (h.write hdrafts k r) fun path c₁ h₁ => ?_
  refine Action.holds_after_bind (x := modify _) (?_) fun _ c₂ h₂ => ?_
  · exact ⟨h₁.layout, h₁.anchored, h₁.operation, h₁.spares⟩
  refine Action.holds_after_bind (h₂.append hop _) fun _ c₃ h₃ => ?_
  exact ⟨h₃.layout, h₃.anchored, h₃.operation, h₃.spares⟩

theorem follows (hdrafts : SparesDrafts P base) (hop : SparesJournal P base op) :
    Commit.Follows fun c c' => Sparing P l base op t₀ c → Sparing P l base op t₀ c' where
  refl := fun _ hc => hc
  trans := fun h h' hc => h' (h hc)
  record := fun _ _ hc => hc.commitRecord hdrafts hop _ _
  close := fun p _ hc => hc.close hop p

end Sparing

/-- A commit spares files, whatever it comes to. -/
theorem spares_commitAll {x : Session} (hanchored : Anchored x.host.files x.store.layout base)
    (hdrafts : SparesDrafts P base)
    (hop : SparesJournal P base (x.host.operationName x.host.operations)) :
    (commitAll.after x).store.layout = x.store.layout ∧
      Anchored (commitAll.after x).host.files x.store.layout base ∧
      Spares P x.host.files (commitAll.after x).host.files := by
  by_cases hsize : x.staging.size = 0
  · rw [Action.after_of_ok (commitAll_of_empty hsize)]
    exact ⟨rfl, hanchored, .refl P _⟩
  have hstart : Sparing P x.store.layout base (x.host.operationName x.host.operations)
      x.host.files (Commit.start x) := ⟨rfl, hanchored, rfl, .refl P _⟩
  have hrun := (Sparing.follows hdrafts hop).run (Commit.start x) hstart
  cases h : Commit.run (Commit.start x) with
  | ok u c =>
    rw [Action.after_of_ok h] at hrun
    rw [Action.after_of_ok (commitAll_of_ok hsize h)]
    exact ⟨hrun.layout, hrun.anchored, hrun.spares⟩
  | error e c =>
    rw [Action.after_of_error h] at hrun
    rw [Action.after_of_error (commitAll_of_error hsize h)]
    exact ⟨hrun.layout, hrun.anchored, hrun.spares⟩

end Commits

/-! ## Calls -/

namespace Session

open Instantiation

/-- What a caller can do in a session. -/
inductive Call where
  | stage (k : Kind) (r : PendingRecord)
  | discard
  | commitAll
  | commitObjects (k : Kind) (os : List Object)
  | writeDocument (os : List Object)
  | instantiate (probing : Bool) (q : Request)

/-- The session after a call, whatever the call came to. -/
def call (x : Session) : Call → Session
  | .stage k r =>
    match x.staging.stage x.store k r with
    | .ok g => { x with staging := g }
    | .error _ => x
  | .discard => { x with staging := x.staging.discardAll.2 }
  | .commitAll => Staging.commitAll.after x
  | .commitObjects k os =>
    match x.store.commit k os x.host.files with
    | .ok (s, _) t => { x with host := { x.host with files := t }, store := s }
    | .error _ t => { x with host := { x.host with files := t } }
  | .writeDocument os =>
    { x with host := { x.host with files := (x.store.writeDocument os).after x.host.files } }
  | .instantiate probing q =>
    { x with host := (Instantiation.instantiate x.store probing q).after x.host }

/-- Calls in a row. An operation has a name that can be that of a file. Between calls the host
changes in all but its files, so journals fail when they may. -/
inductive Calls (x : Session) : Session → Prop where
  | refl : Calls x x
  | call {y : Session} (h : Calls x y) (c : Call)
    (plain : '/' ∉ (y.host.operationName y.host.operations).toList) : Calls x (y.call c)
  | outside {y : Session} (h : Calls x y) (host : Host) (hfiles : host.files = y.host.files) :
    Calls x { y with host := host }

/-- A place of neither a journal nor the draft of a document. -/
structure IsKept (base j : Location) : Prop where
  not_journal : ¬ InJournals base j
  not_draft : ∀ dir id, j ≠ base ++ draftNames dir id

variable {base : Location} {l : Layout} {t₀ : FileTree} {x y : Session}

theorem sparesDrafts_isKept : SparesDrafts (IsKept base) base := fun dir id hkept =>
  hkept.not_draft dir id rfl

theorem sparesJournal_isKept (base : Location) {op : String} (hop : '/' ∉ op.toList) :
    SparesJournal (IsKept base) base op :=
  ⟨hop, fun hkept => hkept.not_journal (inJournals_journal base op)⟩

/-- A session of a project in which the files of the first tree are as they were. -/
structure Sheltered (l : Layout) (base : Location) (t₀ : FileTree) (x : Session) : Prop where
  layout : x.store.layout = l
  anchored : Anchored x.host.files l base
  spares : Spares (IsKept base) t₀ x.host.files

theorem Sheltered.call (h : Sheltered l base t₀ x)
    (hassets : Settings.checkAssetsDir l.assetsDir = .ok ()) (c : Call)
    (plain : '/' ∉ (x.host.operationName x.host.operations).toList) :
    Sheltered l base t₀ (x.call c) := by
  obtain ⟨rfl, hanchored, hspares⟩ := h
  have hdrafts : SparesDrafts (IsKept base) base := sparesDrafts_isKept
  have hop := sparesJournal_isKept base plain
  cases c with
  | stage k r =>
    unfold Session.call
    dsimp only
    split
    · exact ⟨rfl, hanchored, hspares⟩
    · exact ⟨rfl, hanchored, hspares⟩
  | discard => exact ⟨rfl, hanchored, hspares⟩
  | commitAll =>
    obtain ⟨hlayout, hmoved, hspared⟩ := spares_commitAll hanchored hdrafts hop
    exact ⟨hlayout, hmoved, hspares.trans hspared⟩
  | commitObjects k os =>
    obtain ⟨hmoved, hspared⟩ := hanchored.commit hdrafts k os
    unfold Session.call
    dsimp only
    split
    · next s path t hcommit =>
      rw [Action.after_of_ok hcommit] at hmoved hspared
      cases os with
      | nil => cases hcommit
      | cons o os =>
        obtain ⟨e, -, rfl, -⟩ := commit_eq_ok hcommit
        exact ⟨rfl, hmoved, hspares.trans hspared⟩
    · next e t hcommit =>
      rw [Action.after_of_error hcommit] at hmoved hspared
      exact ⟨rfl, hmoved, hspares.trans hspared⟩
  | writeDocument os =>
    obtain ⟨hmoved, hspared⟩ := hanchored.writeDocument hdrafts os
    exact ⟨rfl, hmoved, hspares.trans hspared⟩
  | instantiate probing q =>
    obtain ⟨hmoved, hspared⟩ := spares_instantiate hanchored hassets hdrafts hop
    exact ⟨rfl, hmoved, hspares.trans hspared⟩

theorem Calls.sheltered (h : Calls x y) (hassets : Settings.checkAssetsDir l.assetsDir = .ok ())
    (hx : Sheltered l base t₀ x) : Sheltered l base t₀ y := by
  induction h with
  | refl => exact hx
  | call _ c plain ih => exact ih.call hassets c plain
  | outside _ host hfiles ih =>
    refine ⟨ih.layout, ?_, ?_⟩
    · rw [hfiles]
      exact ih.anchored
    · rw [hfiles]
      exact ih.spares

end Session

/-! ## Documents that are there already -/

open Session

/-- A document of the object is refused by all that write documents, and nothing changes by it:
neither files nor indices nor what is staged. -/
structure Refuses (x : Session) (o : Object) : Prop where
  document : ∀ os, x.store.writeDocument (o :: os) x.host.files =
    .error (.alreadyExists o.id) x.host.files ∧ x.call (.writeDocument (o :: os)) = x
  /-- Objects of another kind are refused even before. -/
  objects : ∀ k os, (∃ e, x.store.commit k (o :: os) x.host.files = .error e x.host.files ∧
    ((IndexEntry.ofObject? k o).isSome = true → e = .alreadyExists o.id)) ∧
    x.call (.commitObjects k (o :: os)) = x
  /-- A commit that comes to a record of it. -/
  record : ∀ (c : Commit) k r, c.toSession = x → r.object = o →
    ∃ e, Commit.write k r c = .error (.store e) c ∧
      ((IndexEntry.ofObject? k o).isSome = true → e = .alreadyExists o.id)
  /-- An instantiation that comes to it. -/
  run : ∀ (c : Instantiation.Run) k id os, c.host = x.host →
    Instantiation.writeObjects x.store k id (o :: os) c = .error (.store (.alreadyExists o.id)) c

theorem refuses_of_has {x : Session} {o : Object} {path : Path}
    (hpath : x.store.layout.objectPath? o.objectClass o.id = some path)
    (hhas : x.host.files.has path = true) : Refuses x o where
  document := by
    intro os
    have hrefused := writeDocument_of_has hpath hhas os
    refine ⟨hrefused, ?_⟩
    unfold Session.call
    dsimp only
    rw [Action.after_of_error hrefused]
  objects := by
    intro k os
    obtain ⟨e, hrefused, he⟩ := commit_of_has hpath hhas k os
    refine ⟨⟨e, hrefused, he⟩, ?_⟩
    unfold Session.call
    dsimp only
    rw [hrefused]
  record := by
    rintro c k r rfl rfl
    obtain ⟨e, hrefused, he⟩ := commit_of_has hpath hhas k r.siblings
    exact ⟨e, Commit.write_of_error hrefused, he⟩
  run := by
    intro c k id os hhost
    rw [← hhost] at hhas
    have hrefused := writeDocument_of_has hpath hhas os
    exact Action.bind_of_error (Action.within_eq_error.2
      ⟨_, _, Action.within_eq_error.2 ⟨_, _, hrefused, rfl, rfl⟩, rfl, rfl⟩) _

/-- Whatever is called, and whatever the calls come to, each file of an opened project that is
neither a journal nor named like a draft is there afterwards with the same bytes. A document whose
path is taken is never written. -/
theorem files_stay {host : Host} {l : Layout} {keep : Bool} {s : Store} {base : Location}
    (hopen : load host.files l keep = .ok s) (hwell : host.files.WellFormed)
    (hassets : Settings.checkAssetsDir l.assetsDir = .ok ())
    (hbase : host.files.walk l.root = .ok base) {x : Session} (hrun : Calls ⟨host, s, {}⟩ x) :
    (∀ j b, ¬ Instantiation.InJournals base j → (∀ n, j.getLast? ≠ some (n ++ ".tmp")) →
      host.files.contentAt? j = some b → x.host.files.contentAt? j = some b ∧
        ∀ p, host.files.locate p = .ok j → x.host.files.read p = .ok b) ∧
    ∀ (y : Session) (o : Object) (path : Path),
      y.store.layout.objectPath? o.objectClass o.id = some path →
      y.host.files.has path = true → Refuses y o := by
  obtain ⟨rfl, -, c, hholds, -⟩ := load_eq_ok_iff.1 hopen
  obtain ⟨base', hanchored⟩ := exists_anchored hwell hholds
  obtain rfl : base = base' := Except.ok.inj (hbase.symm.trans hanchored.root)
  have hfirst : Sheltered s.layout base host.files ⟨host, s, {}⟩ :=
    ⟨rfl, hanchored, .refl _ host.files⟩
  have hspares := (hrun.sheltered hassets hfirst).spares
  refine ⟨fun j b hjournal hdraft hb => ?_, fun y o path => refuses_of_has⟩
  have hkept : IsKept base j := by
    refine ⟨hjournal, fun dir id hj => hdraft id.fileName ?_⟩
    rw [hj, List.getLast?_append]
    rfl
  have hcontent := hspares.content hkept hb
  exact ⟨hcontent, fun p hp => read_eq_ok.2 ⟨j, Keeps.locate hspares hp, hcontent⟩⟩

/-- An event like the toll. -/
def knell : Instantiation.Request where
  template := toll.id
  name := "Knell"
  folder := loft.masters.eventFolder
  bank := loft.masters.bankFolder
  bus := loft.masterBus

/-- The project when the second write of a journal will fail. -/
def failing : Session := ⟨{ loftHost with faults := .after 2 }, loft, {}⟩

/-- A bus is committed, the document of an event is written again, and an event like it is made. -/
def busy : Session :=
  (((failing.call (.stage .bus reverb)).call .commitAll).call (.writeDocument [toll])).call
    (.instantiate false knell)

theorem calls_busy : Calls ⟨loftHost, loft, {}⟩ busy := by
  have hfailing : Calls ⟨loftHost, loft, {}⟩ failing :=
    .outside .refl { loftHost with faults := .after 2 } rfl
  exact .call (.call (.call (.call hfailing (.stage .bus reverb) (by decide)) .commitAll
    (by decide +kernel)) (.writeDocument [toll]) (by decide +kernel)) (.instantiate false knell)
    (by decide +kernel)

theorem files_stay_busy : Calls ⟨loftHost, loft, {}⟩ busy ∧
    busy.host.files.read ⟨"/p/Metadata/Event/toll.xml"⟩ = .ok (loft.documentBytes [toll]) ∧
    Refuses ⟨loftHost, loft, {}⟩ toll := by
  have hopen : load loftHost.files loft.layout loft.keepJournals = .ok loft := load_loftFiles
  have hassets : Settings.checkAssetsDir loft.layout.assetsDir = .ok () := by decide +kernel
  have hbase : loftHost.files.walk loft.layout.root = .ok ["p"] := by decide +kernel
  have hlocate : loftHost.files.locate ⟨"/p/Metadata/Event/toll.xml"⟩ =
      .ok ["p", "Metadata", "Event", "toll.xml"] := by decide +kernel
  have hjournal : ¬ Instantiation.InJournals ["p"] ["p", "Metadata", "Event", "toll.xml"] := by
    unfold Instantiation.InJournals
    decide
  have hsettled : IsSettled ["p", "Metadata", "Event", "toll.xml"] :=
    isSettled_of_fileName (show _ = some toll.id.fileName from rfl)
  obtain ⟨hstay, hrefuses⟩ := files_stay hopen wellFormed_loftFiles hassets hbase calls_busy
  refine ⟨calls_busy, ?_, hrefuses _ _ ⟨"/p/Metadata/Event/toll.xml"⟩ (by decide +kernel)
    (by decide +kernel)⟩
  exact (hstay _ _ hjournal hsettled.not_draft rfl).2 _ hlocate

end AudioProject
