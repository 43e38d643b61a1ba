import AudioProject.Proofs.Staging.Conservation
import AudioProject.Proofs.Staging.Outcomes
import AudioProject.Proofs.Staging.ParentFirst
import AudioProject.Proofs.Staging.Representation

/-
  The record on which a commit fails. A commit goes from one ready record to the next (`Comes`), and
  if one of them fails (`FailsOn`), it ends there. A record whose document cannot be written stays
  pending, and neither an index nor a place of its name has changed. But the journal is written
  after the record has left the staging, so one that cannot be journaled is committed for good:
  `stays_pending_iff`.
-/

namespace AudioProject

open FileTree Store Staging

namespace Session

variable {x y : Session} {c c' : Commit} {k : Kind} {r : PendingRecord} {e : Staging.Error}

/-! ## From record to record -/

/-- A commit of `x` comes to a state in which it may go on with another record. -/
inductive Comes (x : Session) : Commit → Prop where
  | start : Comes x (Commit.start x)
  | record {c c' : Commit} {k : Kind} {r : PendingRecord} {u : Unit} (h : Comes x c)
    (hpending : c.staging.get? k r.id = some r) (hready : isReady c.store k r = true)
    (hdone : Commit.commitRecord k r c = .ok u c') : Comes x c'

theorem Comes.steps (h : Comes x c) : Steps x c.toSession := by
  induction h with
  | start => exact (Steps.refl x).idle (Commit.idle_start x)
  | record _ hpending hready hdone ih =>
    exact ih.write (Commit.commitRecord_eq_ok hpending hready hdone).1

/-- A commit of `x` ends in `y` with this error, as it works on a ready record. -/
def FailsOn (x : Session) (k : Kind) (r : PendingRecord) (e : Staging.Error) (y : Session) : Prop :=
  ∃ c c', Comes x c ∧ c.staging.get? k r.id = some r ∧ isReady c.store k r = true ∧
    Commit.commitRecord k r c = .error e c' ∧ y = c'.toSession

/-- A commit of `x` ends in `y` with this error, as it closes its journal after the records. -/
def FailsToClose (x : Session) (e : Staging.Error) (y : Session) : Prop :=
  ∃ p c c', Comes x c ∧ Commit.close p c = .error e c' ∧ y = c'.toSession

end Session

namespace Staging.Commit

open Session

/-- A commit that ends with an error fails on a record, or as it closes its journal, or it leaves
records without a parent. -/
theorem guards_comes (x : Session) (hsound : x.staging.Sound) :
    Guards (fun _ c => Comes x c) fun e _ c =>
      (∃ k r, FailsOn x k r e c.toSession) ∨ FailsToClose x e c.toSession ∨
        ∃ k ids, e = .unresolved k ids c.counts where
  keyed := by
    intro _ c h k id r hr
    exact (sound_of_steps h.steps hsound).keyed k id r hr
  record := by
    intro xs c k r h hpending hready
    cases hdone : commitRecord k r c with
    | ok u c' => exact h.record hpending hready hdone
    | error e c' => exact Or.inl ⟨k, r, c, c', h, hpending, hready, hdone, rfl⟩
  stop := by
    intro xs c h
    cases hclose : close .incomplete c with
    | ok u c' =>
      intro k ids
      exact Or.inr (Or.inr ⟨k, ids, rfl⟩)
    | error e c' => exact Or.inr (Or.inl ⟨_, c, c', h, hclose, rfl⟩)

end Staging.Commit

namespace Session

variable {x y z : Session} {k : Kind} {r : PendingRecord} {e : Staging.Error}

theorem fails_of_commitAll (hsound : x.staging.Sound) (h : commitAll x = .error e y) :
    (∃ k r, FailsOn x k r e y) ∨ FailsToClose x e y ∨
      ∃ k ids counts, e = .unresolved k ids counts := by
  by_cases hsize : x.staging.size = 0
  · rw [commitAll_of_empty hsize] at h
    cases h
  have hclose : ∀ {xs : List Session} {c : Commit}, Comes x c →
      Commit.Meets (fun _ _ => True) (fun e _ c => (∃ k r, FailsOn x k r e c.toSession) ∨
          FailsToClose x e c.toSession ∨ ∃ k ids, e = .unresolved k ids c.counts) xs
        (Commit.close .committed c) := by
    intro xs c h
    cases hclose : Commit.close .committed c with
    | ok u c' => trivial
    | error e c' => exact Or.inr (Or.inl ⟨_, c, c', h, hclose, rfl⟩)
  have hrun := @Commit.Guards.run _ _ _ [] _ (Commit.guards_comes x hsound) hclose Comes.start
  cases hresult : Commit.run (Commit.start x) with
  | ok u c =>
    rw [commitAll_of_ok hsize hresult] at h
    cases h
  | error e' c =>
    rw [commitAll_of_error hsize hresult] at h
    cases h
    rw [hresult] at hrun
    rcases hrun with hrecord | hclose | ⟨k, ids, he⟩
    · exact Or.inl hrecord
    · exact Or.inr (Or.inl hclose)
    · exact Or.inr (Or.inr ⟨k, ids, _, he⟩)

/-! ## The record that fails -/

/-- From `x` to `y` no index has changed at the id of a record, and no place of its name. -/
structure Untouched (r : PendingRecord) (x y : Session) : Prop where
  lookup : ∀ j, y.store.lookup? j r.id = x.store.lookup? j r.id
  places : Keeps (fun l => l.getLast? = some r.id.fileName) x.host.files y.host.files

theorem Untouched.idle (h : Untouched r x y) (last : Idle y z) : Untouched r x z where
  lookup := by
    intro j
    rw [last.store]
    exact h.lookup j
  places := h.places.trans (last.documents.mono fun _ => isSettled_of_fileName)

/-- What is pending was pending before. -/
theorem staged_of_steps (h : Steps x y) (hr : y.staging.get? k r.id = some r) :
    x.staging.get? k r.id = some r := by
  induction h with
  | refl => exact hr
  | idle _ last ih =>
    rw [last.staging] at hr
    exact ih hr
  | write _ last ih =>
    rw [last.staging, get?_take] at hr
    split at hr
    · cases hr
    · exact ih hr

/-- While a record is pending, only other ones are written. -/
theorem untouched_of_steps (h : Steps x y) (hsound : x.staging.Sound)
    (hr : y.staging.get? k r.id = some r) : Untouched r x y := by
  induction h with
  | refl => exact ⟨fun _ => rfl, .refl _ _⟩
  | idle _ last ih =>
    rw [last.staging] at hr
    exact (ih hr).idle last
  | @write y z j q before last ih =>
    rw [last.staging] at hr
    obtain ⟨hne, hpending⟩ := (Commit.sound_of_steps before hsound).of_get?_take last.pending hr
    obtain ⟨hlookup, hplaces⟩ := ih hpending
    obtain ⟨e, he, hstore⟩ := last.entry
    refine ⟨fun i => ?_, hplaces.trans (last.others.mono fun l hl => ?_)⟩
    · rw [hstore, Store.lookup?_insert, if_neg fun hi => hne ?_, hlookup]
      exact (IndexEntry.id_ofObject? he).symm.trans hi.2
    · refine ⟨isSettled_of_fileName hl, fun hq => hne ?_⟩
      exact ObjectId.fileName_inj (Option.some.inj (hq.symm.trans hl))

/-- The record is pending in `y` as it was in `x`; no index has it that did not have it, and no
document came to a place of its name. -/
structure StaysPending (x : Session) (k : Kind) (r : PendingRecord) (y : Session) : Prop where
  record : y.staging.get? k r.id = some r
  pending : y.staging.isPending r.id = true
  index : ∀ j, y.store.contains j r.id = x.store.contains j r.id
  document : ∀ l, l.getLast? = some r.id.fileName →
    y.host.files.contentAt? l = x.host.files.contentAt? l

/-- The record is pending no more: it is in the index and on disk. -/
structure WentThrough (k : Kind) (r : PendingRecord) (y : Session) : Prop where
  pending : y.staging.isPending r.id = false
  committed : Committed y k r

theorem Wrote.wentThrough (h : Wrote k r x y) : WentThrough k r y where
  pending := by
    rw [h.staging, isPending_take]
    simp
  committed := h.committed

/-- A record whose document is not written stays pending, and one that is not journaled went
through. -/
theorem FailsOn.cases (h : FailsOn x k r e y) (hsound : x.staging.Sound) :
    ((∃ e', e = .store e') ∧ StaysPending x k r y) ∨
      (∃ e', e = .journal e') ∧ WentThrough k r y := by
  obtain ⟨c, c', hcomes, hpending, hready, hfails, rfl⟩ := h
  rcases Commit.commitRecord_eq_error hpending hready hfails with
    ⟨hidle, e', t, rfl, -⟩ | ⟨hwrote, he⟩
  · have huntouched := (untouched_of_steps hcomes.steps hsound hpending).idle hidle
    have hstays : c'.staging.get? k r.id = some r := hidle.staging ▸ hpending
    have hsound' := Commit.sound_of_steps (hcomes.steps.idle hidle) hsound
    exact Or.inl ⟨⟨e', rfl⟩, hstays, (hsound'.listed r.id).2 ⟨k, r, hstays⟩,
      fun j => congrArg Option.isSome (huntouched.lookup j), huntouched.places.content⟩
  · exact Or.inr ⟨he, hwrote.wentThrough⟩

theorem FailsOn.staged (h : FailsOn x k r e y) : x.staging.get? k r.id = some r := by
  obtain ⟨c, -, hcomes, hpending, -⟩ := h
  exact staged_of_steps hcomes.steps hpending

theorem FailsToClose.journal (h : FailsToClose x e y) : ∃ e', e = .journal e' := by
  obtain ⟨p, c, c', -, hclose, -⟩ := h
  exact Commit.close_eq_error hclose

theorem WentThrough.not_staysPending (h : WentThrough k r y) : ¬ StaysPending x k r y := by
  intro hstays
  have hpending := hstays.pending
  rw [h.pending] at hpending
  cases hpending

end Session

namespace Staging

open Session

variable {past : List (Kind × ObjectId)} {s : Store} {g : Staging} {host : Host} {y : Session}
  {e : Staging.Error}

/-- A commit that ends over a file ends with a record, or as it closes its journal. The record with
which it ends stays pending, with indices and places as they were, exactly if its document could not
be written. Where the journal could not be, the record went through. -/
theorem stays_pending_iff (hcalls : Calls past g) (hends : commitAll ⟨host, s, g⟩ = .error e y) :
    ((∃ e', e = .store e') → ∃ k r, FailsOn ⟨host, s, g⟩ k r e y) ∧
      ((∃ e', e = .journal e') →
        (∃ k r, FailsOn ⟨host, s, g⟩ k r e y) ∨ FailsToClose ⟨host, s, g⟩ e y) ∧
      ∀ k r, FailsOn ⟨host, s, g⟩ k r e y →
        g.get? k r.id = some r ∧ (Reached s g → ∀ j, s.contains j r.id = false) ∧
          (StaysPending ⟨host, s, g⟩ k r y ↔ ∃ e', e = .store e') ∧
          (WentThrough k r y ↔ ∃ e', e = .journal e') := by
  have hsound : g.Sound := sound_of_calls hcalls
  have hcause := fails_of_commitAll (x := ⟨host, s, g⟩) hsound hends
  refine ⟨?_, ?_, fun k r hfails => ?_⟩
  · rintro ⟨e', rfl⟩
    rcases hcause with hrecord | hclose | ⟨k, ids, counts, he⟩
    · exact hrecord
    · obtain ⟨e'', he⟩ := hclose.journal
      cases he
    · cases he
  · rintro ⟨e', rfl⟩
    rcases hcause with hrecord | hclose | ⟨k, ids, counts, he⟩
    · exact Or.inl hrecord
    · exact Or.inr hclose
    · cases he
  · have hstaged : g.get? k r.id = some r := hfails.staged
    refine ⟨hstaged, fun hreached => (fits_of_reached hreached).fresh k r.id r hstaged, ?_⟩
    rcases hfails.cases hsound with ⟨⟨e', rfl⟩, hstays⟩ | ⟨⟨e', rfl⟩, hwent⟩
    · refine ⟨iff_of_true hstays ⟨e', rfl⟩, iff_of_false (fun h => h.not_staysPending hstays) ?_⟩
      nofun
    · refine ⟨iff_of_false hwent.not_staysPending ?_, iff_of_true hwent ⟨e', rfl⟩⟩
      nofun

/-! ### A draft that cannot be written, and a journal that cannot -/

/-- A folder whose draft has a directory in its place is staged before its parent. -/
def blocked : Session := { nested with
  host := { loftHost with
    files.nodes := ⟨loftFiles.nodes.toList ++
      [(["p", "Metadata", "EventFolder", "inner.xml.tmp"], .directory)], by decide⟩ } }

theorem calls_nested : Calls [(.eventFolder, outer.id), (.eventFolder, inner.id)]
    nested.staging := by
  have hinner : Calls [(.eventFolder, inner.id)] (({} : Staging).add .eventFolder inner none) :=
    Calls.none.staged (s := loft) (r := inner) rfl
  exact hinner.staged (s := loft) (r := outer) rfl

theorem stays_pending_blocked : Calls [(.eventFolder, outer.id), (.eventFolder, inner.id)]
    blocked.staging ∧ ∃ e y k r, commitAll blocked = .error (.store e) y ∧
      FailsOn blocked k r (.store e) y ∧ StaysPending blocked k r y ∧
      y.staging.isPending inner.id = true ∧ y.store.contains .eventFolder inner.id = false ∧
      y.store.contains .eventFolder outer.id = true := by
  have hruns : (match commitAll blocked with
      | .error (.store _) y => y.staging.isPending inner.id &&
        !y.store.contains .eventFolder inner.id && y.store.contains .eventFolder outer.id
      | _ => false) = true := by decide +kernel
  split at hruns
  · next e y hends =>
    rw [Bool.and_eq_true, Bool.and_eq_true, Bool.not_eq_true'] at hruns
    obtain ⟨hfails, -, hrecord⟩ := stays_pending_iff calls_nested hends
    obtain ⟨k, r, hfails⟩ := hfails ⟨e, rfl⟩
    exact ⟨calls_nested, e, y, k, r, hends, hfails, (hrecord k r hfails).2.2.1.2 ⟨e, rfl⟩,
      hruns.1.1, hruns.1.2, hruns.2⟩
  · cases hruns

/-- A commit ends with the first event folder that fails. -/
theorem commitAll_of_first {x : Session} {r : PendingRecord} {ids : List ObjectId} {c : Commit}
    (hids : x.staging.ids .eventFolder = r.id :: ids) (hsize : x.staging.size ≠ 0)
    (hr : x.staging.get? .eventFolder r.id = some r)
    (hready : isReady x.store .eventFolder r = true)
    (hfails : Commit.commitRecord .eventFolder r (Commit.start x) = .error e c) :
    commitAll x = .error e c.toSession := by
  have hids : (Commit.start x).staging.ids .eventFolder = r.id :: ids := hids
  have hpass : Commit.pass .eventFolder (r.id :: ids) (Commit.start x) = .error e c := by
    rw [Commit.pass_cons_of_ready ids hr hready, Action.bind_of_error hfails]
  have hpasses : Commit.passes .eventFolder (ids.length + 1) (Commit.start x) = .error e c := by
    rw [Commit.passes_succ, hids, Action.bind_of_error hpass]
  have hkinds : Commit.kinds Kind.all (Commit.start x) = .error e c := by
    show Commit.kinds (.eventFolder :: _) _ = _
    rw [Commit.kinds_cons, hids, List.length_cons, Action.bind_of_error hpasses]
  exact commitAll_of_error hsize (Action.bind_of_error hkinds _)

/-- A folder is staged, and no journal can be written. -/
def unlogged : Session :=
  ⟨{ loftHost with faults := .after 1 }, loft, ({} : Staging).add .eventFolder outer none⟩

/-- The commit fails on the folder. It is pending no more, but in the index and on disk. -/
theorem unlogged_went_through : ∃ e y, commitAll unlogged = .error (.journal e) y ∧
    FailsOn unlogged .eventFolder outer (.journal e) y ∧
    y.staging.isPending outer.id = false ∧ y.store.contains .eventFolder outer.id = true ∧
    y.host.files.isFile ⟨"/p/Metadata/EventFolder/outer.xml"⟩ = true := by
  have hruns : (match Commit.commitRecord .eventFolder outer (Commit.start unlogged) with
      | .error (.journal _) c => !c.staging.isPending outer.id &&
        c.store.contains .eventFolder outer.id &&
        c.host.files.isFile ⟨"/p/Metadata/EventFolder/outer.xml"⟩
      | _ => false) = true := by decide +kernel
  split at hruns
  · next e c hfails =>
    rw [Bool.and_eq_true, Bool.and_eq_true, Bool.not_eq_true'] at hruns
    have hready : isReady loft .eventFolder outer = true := by decide +kernel
    exact ⟨e, c.toSession, commitAll_of_first rfl (by decide) rfl hready hfails,
      ⟨_, c, .start, rfl, hready, hfails, rfl⟩, hruns.1.1, hruns.1.2, hruns.2⟩
  · cases hruns

end Staging

end AudioProject
