import AudioProject.Proofs.Staging.Readiness

/-
  What a commit commits when no write fails. A pass that commits nothing has found no record
  ready, and every other pass leaves fewer records, so as many passes as there are records bring a
  kind to its end: nothing is left, or nothing that is left is ready. Then the committed records
  are those that settle. `commitAll_commits_due` puts the kinds together.
-/

namespace AudioProject.Staging

open Session

namespace Commit

variable {c c' c'' : Commit} {k : Kind} {ks js : List Kind}

/-! ## What a part of a commit does -/

/-- Records of the kinds `ks` were committed, and counted. -/
structure Worked (ks : List Kind) (c c' : Commit) : Prop where
  steps : Steps c.toSession c'.toSession
  others : ∀ j, j ∉ ks → c'.staging.table j = c.staging.table j
  counted : ∀ j, c'.counts.get j + (c'.staging.ids j).length =
    c.counts.get j + (c.staging.ids j).length

namespace Worked

theorem refl (ks : List Kind) (c : Commit) : Worked ks c c :=
  ⟨.refl _, fun _ _ => rfl, fun _ => rfl⟩

theorem trans (h : Worked ks c c') (h' : Worked ks c' c'') : Worked ks c c'' where
  steps := h.steps.trans h'.steps
  others := fun j hj => (h'.others j hj).trans (h.others j hj)
  counted := fun j => (h'.counted j).trans (h.counted j)

theorem mono (hks : ∀ j ∈ ks, j ∈ js) (h : Worked ks c c') : Worked js c c' where
  steps := h.steps
  others := fun j hj => h.others j fun hjs => hj (hks j hjs)
  counted := h.counted

theorem of_idle (hidle : Idle c.toSession c'.toSession) (hcounts : c'.counts = c.counts) :
    Worked ks c c' where
  steps := (Steps.refl _).idle hidle
  others := fun j _ => by rw [hidle.staging]
  counted := fun j => by rw [hcounts, hidle.staging]

theorem length_ids_of_wrote {r : PendingRecord} (h : Wrote k r c.toSession c'.toSession)
    (j : Kind) :
    (c'.staging.ids j).length + (if k = j then 1 else 0) = (c.staging.ids j).length := by
  unfold ids OrderedMap.keys
  rw [h.staging, table_take]
  by_cases hj : k = j
  · subst hj
    obtain ⟨front, back, hlist, herase, -⟩ := OrderedMap.toList_erase_of_get? h.pending
    rw [if_pos rfl, if_pos rfl, herase]
    have hlength := congrArg List.length hlist
    simp only [List.length_map, List.length_append, List.length_cons] at hlength ⊢
    rw [hlength]
    rfl
  · rw [if_neg hj, if_neg hj, Nat.add_zero]

theorem of_wrote {r : PendingRecord} (h : Wrote k r c.toSession c'.toSession)
    (hcounts : c'.counts = c.counts.increment k) : Worked [k] c c' where
  steps := (Steps.refl _).write h
  others := by
    intro j hj
    have hne : k ≠ j := by
      intro hsame
      subst hsame
      exact hj (List.mem_singleton_self k)
    rw [h.staging, table_take, if_neg hne]
  counted := by
    intro j
    have hlength := length_ids_of_wrote h j
    rw [hcounts, Counts.increment, ByKind.get_set]
    by_cases hj : k = j
    · subst hj
      rw [if_pos rfl] at hlength ⊢
      omega
    · rw [if_neg hj] at hlength ⊢
      omega

/-- Closing the journal leaves the staging and the counts. -/
theorem of_close {p : Journal.Phase} {u : Unit} (h : close p c = .ok u c') :
    Worked ks c c' := by
  have hidle := idle_close p c
  have hafter := Action.after_of_ok h
  rw [hafter] at hidle
  rw [after_close] at hafter
  exact .of_idle hidle (by rw [← hafter])

/-- A kind that has come to its end stays there. -/
theorem ids_eq_nil (h : Worked ks c c') (hfits : Fits c.store c.staging)
    (hnil : c.staging.ids k = []) : c'.staging.ids k = [] := by
  have htable := table_of_steps h.steps hfits k
  have hempty : (c.staging.table k).toList = [] := List.map_eq_nil_iff.1 hnil
  rw [hempty] at htable
  exact List.map_eq_nil_iff.2 htable

end Worked

/-- A document could not be written, or the journal could not. -/
inductive IsWriteError : Error → Prop where
  | noPlace (c : ObjectClass) : IsWriteError (.store (.invalid (.noDocumentFor c)))
  | taken (id : ObjectId) : IsWriteError (.store (.alreadyExists id))
  | file (path : Path) (e : FileError) : IsWriteError (.store (.file path e))
  | journal (e : Journal.Error) : IsWriteError (.journal e)

/-- A record that staging admitted has an entry, so only a write can keep it from being
committed. -/
theorem isWriteError_of_commitRecord {r : PendingRecord} {e : Error} (hadmitted : Admitted k r)
    (hpending : c.staging.get? k r.id = some r) (hready : isReady c.store k r = true)
    (h : commitRecord k r c = .error e c') : IsWriteError e := by
  rcases commitRecord_eq_error hpending hready h with ⟨-, e', t, rfl, hstore⟩ | ⟨-, e', rfl⟩
  · obtain ⟨entry, hentry, -⟩ := PendingRecord.exists_entry hadmitted.accepts hadmitted.placed
    rcases Store.commit_eq_error hstore with ⟨hnone, -⟩ | hdocument
    · rw [hentry] at hnone
      cases hnone
    rcases Store.error_of_writeDocument hdocument with ⟨rfl, -⟩ | ⟨rfl, -⟩ | ⟨path, -, -, hfile⟩
    · exact .noPlace _
    · exact .taken _
    · obtain ⟨path, e'', rfl⟩ := Store.error_of_writeFile hfile
      exact .file path e''
  · exact .journal e'

/-! ## One pass -/

theorem get_eq_ok (c : Commit) : (get : Action Commit Error Commit) c = .ok c c := rfl

/-- A record that is not there, or not ready, is passed over. -/
theorem pass_cons_of_not_ready {id : ObjectId} (ids : List ObjectId)
    (h : ∀ r, c.staging.get? k id = some r → isReady c.store k r = false) :
    pass k (id :: ids) c = pass k ids c := by
  rw [pass, Action.bind_of_ok (get_eq_ok c)]
  cases hr : c.staging.get? k id with
  | none => rfl
  | some r =>
    dsimp only
    rw [h r hr]
    rfl

theorem pass_cons_of_ready {r : PendingRecord} (ids : List ObjectId)
    (hr : c.staging.get? k r.id = some r) (hready : isReady c.store k r = true) :
    pass k (r.id :: ids) c =
      (commitRecord k r >>= fun _ => pass k ids >>= fun _ => pure true) c := by
  rw [pass, Action.bind_of_ok (get_eq_ok c), hr]
  dsimp only
  rw [hready]
  rfl

theorem pass_eq_ok {ids : List ObjectId} {progress : Bool} (hfits : Fits c.store c.staging)
    (h : pass k ids c = .ok progress c') :
    Worked [k] c c' ∧
      if progress then (c'.staging.ids k).length < (c.staging.ids k).length
      else c' = c ∧
        ∀ id ∈ ids, ∀ r, c.staging.get? k id = some r → isReady c.store k r = false := by
  induction ids generalizing c progress with
  | nil =>
    cases h
    exact ⟨.refl _ _, rfl, by simp⟩
  | cons id ids ih =>
    by_cases hskip : ∀ r, c.staging.get? k id = some r → isReady c.store k r = false
    · rw [pass_cons_of_not_ready ids hskip] at h
      obtain ⟨hworked, hresult⟩ := ih hfits h
      refine ⟨hworked, ?_⟩
      cases progress with
      | true => exact hresult
      | false =>
        refine ⟨hresult.1, ?_⟩
        intro id' hid' r hr
        rcases List.mem_cons.1 hid' with rfl | hid'
        · exact hskip r hr
        · exact hresult.2 id' hid' r hr
    · obtain ⟨r, hr, hready⟩ : ∃ r, c.staging.get? k id = some r ∧ isReady c.store k r = true := by
        simpa using hskip
      have hid := hfits.keyed k id r hr
      subst hid
      rw [pass_cons_of_ready ids hr hready] at h
      obtain ⟨_, c₁, hcommit, h⟩ := Action.bind_eq_ok.1 h
      obtain ⟨_, c₂, hrest, h⟩ := Action.bind_eq_ok.1 h
      cases h
      obtain ⟨hwrote, hcounts⟩ := commitRecord_eq_ok hr hready hcommit
      have hfirst := Worked.of_wrote hwrote hcounts
      obtain ⟨hworked, hresult⟩ := ih (fits_of_steps hfirst.steps hfits) hrest
      refine ⟨hfirst.trans hworked, ?_⟩
      have hlength := Worked.length_ids_of_wrote hwrote k
      rw [if_pos rfl] at hlength ⊢
      split at hresult
      · omega
      · rw [hresult.1]
        omega

theorem pass_eq_error {ids : List ObjectId} {e : Error} (hfits : Fits c.store c.staging)
    (h : pass k ids c = .error e c') : IsWriteError e := by
  induction ids generalizing c with
  | nil => cases h
  | cons id ids ih =>
    by_cases hskip : ∀ r, c.staging.get? k id = some r → isReady c.store k r = false
    · rw [pass_cons_of_not_ready ids hskip] at h
      exact ih hfits h
    · obtain ⟨r, hr, hready⟩ : ∃ r, c.staging.get? k id = some r ∧ isReady c.store k r = true := by
        simpa using hskip
      have hid := hfits.keyed k id r hr
      subst hid
      rw [pass_cons_of_ready ids hr hready] at h
      rcases Action.bind_eq_error.1 h with h | ⟨_, c₁, hcommit, h⟩
      · exact isWriteError_of_commitRecord (hfits.admitted k r.id r hr) hr hready h
      have hwrote := (commitRecord_eq_ok hr hready hcommit).1
      rcases Action.bind_eq_error.1 h with h | ⟨_, c₂, -, h⟩
      · exact ih (fits_of_steps ((Steps.refl _).write hwrote) hfits) h
      · cases h

/-! ## All passes of a kind -/

/-- The error of a kind that has come to its end, with records left and none of them ready. -/
structure Stuck (k : Kind) (e : Error) (c : Commit) : Prop where
  error : e = .unresolved k (c.staging.ids k) c.counts
  left : c.staging.ids k ≠ []
  not_ready : ∀ id r, c.staging.get? k id = some r → isReady c.store k r = false

theorem passes_succ (k : Kind) (n : Nat) (c : Commit) : passes k (n + 1) c =
    (pass k (c.staging.ids k) >>= fun progress => get >>= fun c₁ =>
      if (c₁.staging.ids k).isEmpty then pure ()
      else if progress then passes k n
      else close .incomplete >>= fun _ => get >>= fun c₂ =>
        throw (.unresolved k (c₁.staging.ids k) c₂.counts)) c := by
  rw [passes, Action.bind_of_ok (get_eq_ok c)]

/-- As many passes as there are records leave none, if they do not fail. -/
theorem passes_eq_ok {n : Nat} {u : Unit} (hfits : Fits c.store c.staging)
    (hn : (c.staging.ids k).length ≤ n) (h : passes k n c = .ok u c') :
    Worked [k] c c' ∧ c'.staging.ids k = [] := by
  induction n generalizing c with
  | zero =>
    cases h
    exact ⟨.refl _ _, List.eq_nil_of_length_eq_zero (by omega)⟩
  | succ n ih =>
    rw [passes_succ] at h
    obtain ⟨progress, c₁, hpass, h⟩ := Action.bind_eq_ok.1 h
    obtain ⟨hworked, hresult⟩ := pass_eq_ok hfits hpass
    rw [Action.bind_of_ok (get_eq_ok c₁)] at h
    by_cases hempty : (c₁.staging.ids k).isEmpty = true
    · rw [if_pos hempty] at h
      cases h
      exact ⟨hworked, List.isEmpty_iff.1 hempty⟩
    rw [if_neg hempty] at h
    cases progress with
    | true =>
      rw [if_pos rfl] at h hresult
      obtain ⟨hrest, hnil⟩ := ih (fits_of_steps hworked.steps hfits) (by omega) h
      exact ⟨hworked.trans hrest, hnil⟩
    | false =>
      rw [if_neg (by simp)] at h
      obtain ⟨_, c₂, -, h⟩ := Action.bind_eq_ok.1 h
      rw [Action.bind_of_ok (get_eq_ok c₂)] at h
      cases h

theorem passes_eq_error {n : Nat} {e : Error} (hfits : Fits c.store c.staging)
    (h : passes k n c = .error e c') : IsWriteError e ∨ Worked [k] c c' ∧ Stuck k e c' := by
  induction n generalizing c with
  | zero => cases h
  | succ n ih =>
    rw [passes_succ] at h
    rcases Action.bind_eq_error.1 h with h | ⟨progress, c₁, hpass, h⟩
    · exact Or.inl (pass_eq_error hfits h)
    obtain ⟨hworked, hresult⟩ := pass_eq_ok hfits hpass
    rw [Action.bind_of_ok (get_eq_ok c₁)] at h
    by_cases hempty : (c₁.staging.ids k).isEmpty = true
    · rw [if_pos hempty] at h
      cases h
    rw [if_neg hempty] at h
    cases progress with
    | true =>
      rcases ih (fits_of_steps hworked.steps hfits) h with hwrite | ⟨hrest, hstuck⟩
      · exact Or.inl hwrite
      · exact Or.inr ⟨hworked.trans hrest, hstuck⟩
    | false =>
      rw [if_neg (by simp)] at h
      rcases Action.bind_eq_error.1 h with h | ⟨_, c₂, hclose, h⟩
      · obtain ⟨e', rfl⟩ := close_eq_error h
        exact Or.inl (.journal e')
      rw [Action.bind_of_ok (get_eq_ok c₂)] at h
      cases h
      obtain ⟨rfl, hnone⟩ := hresult
      have hidle := idle_close .incomplete c₁
      rw [Action.after_of_ok hclose] at hidle
      refine Or.inr ⟨.of_close hclose, ?_, ?_, ?_⟩
      · rw [hidle.staging]
      · rw [hidle.staging]
        exact fun hnil => hempty (List.isEmpty_iff.2 hnil)
      · intro id r hr
        rw [hidle.staging] at hr
        rw [hidle.store]
        exact hnone id ((mem_ids_iff _ _ _).2 ⟨r, hr⟩) r hr

/-! ## All kinds -/

theorem kinds_cons (k : Kind) (ks : List Kind) (c : Commit) : kinds (k :: ks) c =
    (passes k (c.staging.ids k).length >>= fun _ => kinds ks) c := by
  rw [kinds, Action.bind_of_ok (get_eq_ok c)]

theorem kinds_eq_ok {u : Unit} (hfits : Fits c.store c.staging) (h : kinds ks c = .ok u c') :
    Worked ks c c' ∧ ∀ k ∈ ks, c'.staging.ids k = [] := by
  induction ks generalizing c with
  | nil =>
    cases h
    exact ⟨.refl _ _, by simp⟩
  | cons k ks ih =>
    rw [kinds_cons] at h
    obtain ⟨_, c₁, hpasses, h⟩ := Action.bind_eq_ok.1 h
    obtain ⟨hworked, hnil⟩ := passes_eq_ok hfits (Nat.le_refl _) hpasses
    have hfits₁ := fits_of_steps hworked.steps hfits
    obtain ⟨hrest, hnils⟩ := ih hfits₁ h
    refine ⟨(hworked.mono (by simp)).trans (hrest.mono fun _ => List.mem_cons_of_mem _), ?_⟩
    intro j hj
    rcases List.mem_cons.1 hj with rfl | hj
    · exact hrest.ids_eq_nil hfits₁ hnil
    · exact hnils j hj

/-- A commit stops at the first kind with records that stay. -/
theorem kinds_eq_error {e : Error} (hfits : Fits c.store c.staging)
    (h : kinds ks c = .error e c') :
    IsWriteError e ∨ ∃ front k back, ks = front ++ k :: back ∧ Worked (front ++ [k]) c c' ∧
      Stuck k e c' ∧ ∀ j ∈ front, c'.staging.ids j = [] := by
  induction ks generalizing c with
  | nil => cases h
  | cons k ks ih =>
    rw [kinds_cons] at h
    rcases Action.bind_eq_error.1 h with h | ⟨_, c₁, hpasses, h⟩
    · rcases passes_eq_error hfits h with hwrite | ⟨hworked, hstuck⟩
      · exact Or.inl hwrite
      · exact Or.inr ⟨[], k, ks, rfl, hworked, hstuck, by simp⟩
    obtain ⟨hworked, hnil⟩ := passes_eq_ok hfits (Nat.le_refl _) hpasses
    have hfits₁ := fits_of_steps hworked.steps hfits
    rcases ih hfits₁ h with hwrite | ⟨front, k', back, rfl, hrest, hstuck, hnils⟩
    · exact Or.inl hwrite
    refine Or.inr ⟨k :: front, k', back, rfl, ?_, hstuck, ?_⟩
    · exact (hworked.mono (by simp)).trans (hrest.mono fun _ => List.mem_cons_of_mem _)
    · intro j hj
      rcases List.mem_cons.1 hj with rfl | hj
      · exact hrest.ids_eq_nil hfits₁ hnil
      · exact hnils j hj

theorem run_eq_ok {u : Unit} (hfits : Fits c.store c.staging) (h : run c = .ok u c') :
    Worked Kind.all c c' ∧ ∀ k, c'.staging.ids k = [] := by
  obtain ⟨_, c₁, hkinds, hclose⟩ := Action.bind_eq_ok.1 h
  obtain ⟨hworked, hnil⟩ := kinds_eq_ok hfits hkinds
  have hend : Worked Kind.all c₁ c' := .of_close hclose
  exact ⟨hworked.trans hend, fun k =>
    hend.ids_eq_nil (fits_of_steps hworked.steps hfits) (hnil k (Kind.mem_all k))⟩

theorem run_eq_error {e : Error} (hfits : Fits c.store c.staging) (h : run c = .error e c') :
    IsWriteError e ∨ ∃ front k back, Kind.all = front ++ k :: back ∧ Worked (front ++ [k]) c c' ∧
      Stuck k e c' ∧ ∀ j ∈ front, c'.staging.ids j = [] := by
  rcases Action.bind_eq_error.1 h with h | ⟨_, c₁, -, h⟩
  · exact kinds_eq_error hfits h
  · obtain ⟨e', rfl⟩ := close_eq_error h
    exact Or.inl (.journal e')

end Commit

/-! ## The result of a commit -/

theorem Kind.rank_inj {j k : Kind} (h : j.rank = k.rank) : j = k := by
  cases j <;> cases k <;> first | rfl | cases h

theorem Kind.pairwise_rank : Kind.all.Pairwise fun j k => j.rank < k.rank := by decide

/-- The kinds in front of a kind are those of lower rank. -/
theorem mem_front_iff {front back : List Kind} {k : Kind} (hall : Kind.all = front ++ k :: back)
    (j : Kind) : j ∈ front ↔ j.rank < k.rank := by
  have hpairwise := Kind.pairwise_rank
  rw [hall, List.pairwise_append, List.pairwise_cons] at hpairwise
  obtain ⟨-, ⟨hback, -⟩, hfront⟩ := hpairwise
  constructor
  · intro hj
    exact hfront j hj k List.mem_cons_self
  · intro hlt
    have hmem := Kind.mem_all j
    rw [hall, List.mem_append, List.mem_cons] at hmem
    rcases hmem with hj | rfl | hj
    · exact hj
    · omega
    · have := hback j hj
      omega

/-- What was staged for a store, and nothing committed since. -/
inductive Staged (s : Store) : Staging → Prop where
  | empty : Staged s {}
  | stage {g g' : Staging} {k : Kind} {r : PendingRecord} (h : Staged s g)
    (hstage : g.stage s k r = .ok g') : Staged s g'

theorem Staged.fits {s : Store} {g : Staging} (h : Staged s g) : Fits s g := by
  induction h with
  | empty => exact .empty s
  | stage _ hstage ih => exact ih.stage hstage

/-- The records that a commit gets to: they settle, and no kind before theirs has records that do
not. -/
def Due (s : Store) (g : Staging) (k : Kind) (r : PendingRecord) : Prop :=
  Settles s g k r ∧ ∀ j, j.rank < k.rank → ∀ id q, g.get? j id = some q → Settles s g j q

theorem Due.congr {s : Store} {g g' : Staging} {k : Kind} {r : PendingRecord}
    (hsame : ∀ k id, g'.get? k id = g.get? k id) (h : Due s g k r) : Due s g' k r :=
  ⟨h.1.congr (hsame k), fun j hj id q hq =>
    (h.2 j hj id q ((hsame j id).symm.trans hq)).congr (hsame j)⟩

/-- Of the records that were pending exactly those in `due` are committed, and no other. -/
structure CommitsExactly (due : Kind → PendingRecord → Prop) (x y : Session) : Prop where
  committed : ∀ k id r, x.staging.get? k id = some r → due k r →
    y.staging.get? k id = none ∧ Committed y k r
  pending : ∀ k id r, x.staging.get? k id = some r → ¬ due k r →
    y.staging.get? k id = some r ∧ y.store.contains k id = false
  others : ∀ k id, x.staging.get? k id = none → y.store.lookup? k id = x.store.lookup? k id

/-- What a commit says of its end. -/
inductive Reports (s : Store) (g : Staging) : EStateM.Result Error Session Counts → Prop where
  | done {counts : Counts} {y : Session}
    (settle : ∀ k id r, g.get? k id = some r → Settles s g k r)
    (counted : ∀ k, counts.get k = (g.ids k).length) (empty : y.staging = {}) :
    Reports s g (.ok counts y)
  | stopped {k : Kind} {ids : List ObjectId} {counts : Counts} {y : Session}
    (before : ∀ j, j.rank < k.rank → ∀ id r, g.get? j id = some r → Settles s g j r)
    (left : ids ≠ []) (order : ids.Sublist (g.ids k))
    (outside : ∀ id, id ∈ ids ↔ ∃ r, g.get? k id = some r ∧ ¬ Settles s g k r)
    (counted : ∀ j, counts.get j = (g.ids j).countP (y.store.contains j)) :
    Reports s g (.error (.unresolved k ids counts) y)

/-- Every document and every journal of a commit could be written: a write that fails ends the
commit with an error of its own. -/
def WritesSucceed (x : Session) : Prop := ∀ e y, commitAll x = .error e y → ¬ Commit.IsWriteError e

variable {x y : Session}

theorem commitsExactly_of_steps (h : Steps x y) (hfits : Fits x.store x.staging)
    {due : Kind → PendingRecord → Prop}
    (hdue : ∀ k r, x.staging.get? k r.id = some r →
      (due k r ↔ y.staging.get? k r.id = none)) : CommitsExactly due x y where
  committed := by
    intro k id r hr hdue'
    have hid := hfits.keyed k id r hr
    subst hid
    have hnone := (hdue k r hr).1 hdue'
    rcases record_of_steps h hfits hr with hpending | hcommitted
    · rw [hnone] at hpending
      cases hpending
    · exact hcommitted
  pending := by
    intro k id r hr hdue'
    have hid := hfits.keyed k id r hr
    subst hid
    rcases record_of_steps h hfits hr with hpending | ⟨hnone, -⟩
    · exact ⟨hpending, (Commit.fits_of_steps h hfits).fresh k r.id r hpending k⟩
    · exact absurd ((hdue k r hr).2 hnone) hdue'
  others := fun _ _ => lookup?_of_steps h hfits

theorem get?_eq_none_of_ids {g : Staging} {k : Kind} (h : g.ids k = []) (id : ObjectId) :
    g.get? k id = none := by
  cases hr : g.get? k id with
  | none => rfl
  | some r =>
    have hmem := (mem_ids_iff g k id).2 ⟨r, hr⟩
    rw [h] at hmem
    cases hmem

/-- Nothing is left of a staging without records: no path is kept either. -/
theorem eq_empty_of_ids {s : Store} {g : Staging} (hfits : Fits s g) (h : ∀ k, g.ids k = []) :
    g = {} := by
  have htables : g.tables = ({} : Staging).tables := by
    refine ByKind.ext_get fun k => OrderedMap.ext ?_
    rw [ByKind.get_all]
    exact List.map_eq_nil_iff.1 (h k)
  have hpaths : g.paths = ({} : Staging).paths := by
    refine OrderedMap.ext (List.eq_nil_iff_forall_not_mem.2 ?_)
    intro h' hp
    obtain ⟨p, id⟩ := h'
    obtain ⟨r, hr, -⟩ := hfits.paths p id ((OrderedMap.get?_eq_some_iff _ _ _).2 hp)
    rw [get?_eq_none_of_ids (h _)] at hr
    cases hr
  have hpending : g.pending = ({} : Staging).pending := by
    refine OrderedMap.ext (List.eq_nil_iff_forall_not_mem.2 ?_)
    intro e he
    have hlisted : g.isPending e.1 = true :=
      OrderedMap.contains_of_get? ((g.pending.get?_eq_some_iff e.1 e.2).2 he)
    obtain ⟨k, r, hr⟩ := (hfits.listed e.1).1 hlisted
    rw [get?_eq_none_of_ids (h k)] at hr
    cases hr
  cases g
  cases htables
  cases hpaths
  cases hpending
  rfl

theorem settles_of_ids_eq_nil (h : Steps x y) (hfits : Fits x.store x.staging) {k : Kind}
    (hnil : y.staging.ids k = []) {id : ObjectId} {r : PendingRecord}
    (hr : x.staging.get? k id = some r) : Settles x.store x.staging k r := by
  have hid := hfits.keyed k id r hr
  subst hid
  exact settles_of_gone h hfits ⟨hr, get?_eq_none_of_ids hnil r.id⟩

/-! ### A commit that stops at a kind -/

/-- A commit went through the kinds before `k`, found no more record of `k` ready, and did not
begin with the kinds after it. -/
structure StopsAt (k : Kind) (x y : Session) : Prop where
  steps : Steps x y
  fits : Fits x.store x.staging
  before : ∀ j, j.rank < k.rank → y.staging.ids j = []
  left : y.staging.ids k ≠ []
  not_ready : ∀ id r, y.staging.get? k id = some r → isReady y.store k r = false
  later : ∀ j, k.rank < j.rank → y.staging.table j = x.staging.table j

namespace StopsAt

variable {k : Kind}

/-- What is left of the kind are the records that do not settle. -/
theorem mem_ids_iff (h : StopsAt k x y) (id : ObjectId) : id ∈ y.staging.ids k ↔
    ∃ r, x.staging.get? k id = some r ∧ ¬ Settles x.store x.staging k r := by
  rw [Staging.mem_ids_iff]
  constructor
  · intro h'
    obtain ⟨r, hr⟩ := h'
    have hid := (Commit.fits_of_steps h.steps h.fits).keyed k id r hr
    subst hid
    refine ⟨r, get?_of_steps h.steps h.fits hr, fun hsettles => ?_⟩
    obtain ⟨-, hnone⟩ := gone_of_settles h.steps h.fits h.not_ready hsettles
    rw [hr] at hnone
    cases hnone
  · intro h'
    obtain ⟨r, hr, hsettles⟩ := h'
    have hid := h.fits.keyed k id r hr
    subst hid
    rcases record_of_steps h.steps h.fits hr with hpending | ⟨hnone, -⟩
    · exact ⟨r, hpending⟩
    · exact absurd (settles_of_gone h.steps h.fits ⟨hr, hnone⟩) hsettles

theorem settles_before (h : StopsAt k x y) {j : Kind} (hj : j.rank < k.rank) {id : ObjectId}
    {r : PendingRecord} (hr : x.staging.get? j id = some r) : Settles x.store x.staging j r :=
  settles_of_ids_eq_nil h.steps h.fits (h.before j hj) hr

theorem due_iff (h : StopsAt k x y) {j : Kind} {r : PendingRecord}
    (hr : x.staging.get? j r.id = some r) :
    Due x.store x.staging j r ↔ y.staging.get? j r.id = none := by
  rcases Nat.lt_trichotomy j.rank k.rank with hlt | heq | hgt
  · constructor
    · intro _
      exact get?_eq_none_of_ids (h.before j hlt) r.id
    · intro _
      exact ⟨h.settles_before hlt hr, fun i hi id q hq =>
        h.settles_before (Nat.lt_trans hi hlt) hq⟩
  · obtain rfl := Kind.rank_inj heq
    constructor
    · intro hdue
      exact (gone_of_settles h.steps h.fits h.not_ready hdue.1).2
    · intro hnone
      exact ⟨settles_of_gone h.steps h.fits ⟨hr, hnone⟩, fun i hi id q hq => h.settles_before hi hq⟩
  · -- a record that is left of `k` keeps the later kinds from being due
    constructor
    · intro hdue
      obtain ⟨id, hid⟩ := List.exists_mem_of_ne_nil _ h.left
      obtain ⟨q, hq, hsettles⟩ := (h.mem_ids_iff id).1 hid
      exact absurd (hdue.2 k hgt id q hq) hsettles
    · intro hnone
      unfold Staging.get? at hr hnone
      rw [h.later j hgt, hr] at hnone
      cases hnone

end StopsAt

/-- The ids that are left of a kind, in the order they were staged. -/
theorem ids_of_steps (h : Steps x y) (hfits : Fits x.store x.staging) (k : Kind) :
    y.staging.ids k = (x.staging.ids k).filter fun id => !y.store.contains k id := by
  unfold ids OrderedMap.keys
  rw [table_of_steps h hfits, List.filter_map]
  rfl

/-- Between two sessions as many records of a kind were committed as are in the index now. -/
theorem counted_of_steps (h : Steps x y) (hfits : Fits x.store x.staging) (k : Kind) :
    (x.staging.ids k).countP (y.store.contains k) + (y.staging.ids k).length =
      (x.staging.ids k).length := by
  rw [ids_of_steps h hfits, ← List.countP_eq_length_filter]
  have hlength := List.length_eq_countP_add_countP (y.store.contains k) (l := x.staging.ids k)
  simpa using hlength.symm

/-! ### The commit -/

theorem Sound.ids_eq_nil_of_size {g : Staging} (hsound : g.Sound) (h : g.size = 0) (k : Kind) :
    g.ids k = [] := by
  refine List.eq_nil_iff_forall_not_mem.2 fun id hid => ?_
  obtain ⟨r, hr⟩ := (mem_ids_iff g k id).1 hid
  have hpending : id ∈ g.pending.keys :=
    (g.pending.contains_iff id).1 ((hsound.listed id).2 ⟨k, r, hr⟩)
  unfold OrderedMap.keys at hpending
  rw [List.eq_nil_of_length_eq_zero h] at hpending
  cases hpending

theorem commitAll_of_done {counts : Counts} (hfits : Fits x.store x.staging) (h : Steps x y)
    (hnil : ∀ k, y.staging.ids k = [])
    (hcounts : ∀ k, counts.get k + (y.staging.ids k).length = (x.staging.ids k).length) :
    CommitsExactly (Due x.store x.staging) x y ∧ Reports x.store x.staging (.ok counts y) := by
  have hall : ∀ k id r, x.staging.get? k id = some r → Settles x.store x.staging k r :=
    fun k id r hr => settles_of_ids_eq_nil h hfits (hnil k) hr
  refine ⟨commitsExactly_of_steps h hfits ?_, .done hall ?_ ?_⟩
  · intro k r hr
    constructor
    · intro _
      exact get?_eq_none_of_ids (hnil k) r.id
    · intro _
      exact ⟨hall k r.id r hr, fun j _ => hall j⟩
  · intro k
    have hk := hcounts k
    rw [hnil k] at hk
    exact hk
  · exact eq_empty_of_ids (Commit.fits_of_steps h hfits) hnil

theorem commitAll_of_stopsAt {k : Kind} {counts : Counts} (h : StopsAt k x y)
    (hcounts : ∀ k, counts.get k + (y.staging.ids k).length = (x.staging.ids k).length) :
    CommitsExactly (Due x.store x.staging) x y ∧
      Reports x.store x.staging (.error (.unresolved k (y.staging.ids k) counts) y) := by
  refine ⟨commitsExactly_of_steps h.steps h.fits fun j r => h.due_iff,
    .stopped (fun j hj id r => h.settles_before hj) h.left ?_ h.mem_ids_iff ?_⟩
  · rw [ids_of_steps h.steps h.fits]
    exact List.filter_sublist
  · intro j
    have hj := hcounts j
    rw [← counted_of_steps h.steps h.fits j] at hj
    omega

/-- Where no write fails, a commit ends with exactly the records that are due committed, and says
so. -/
theorem commitAll_exact (hfits : Fits x.store x.staging) (hwrites : WritesSucceed x) :
    CommitsExactly (Due x.store x.staging) x (commitAll.after x) ∧
      Reports x.store x.staging (commitAll x) := by
  by_cases hsize : x.staging.size = 0
  · have hrun := commitAll_of_empty hsize
    rw [hrun, Action.after_of_ok hrun]
    refine commitAll_of_done hfits (.refl x) (hfits.ids_eq_nil_of_size hsize) ?_
    intro k
    rw [Counts.zero, ByKind.get_all, Nat.zero_add]
  have hcounts : ∀ {ks c}, Commit.Worked ks (Commit.start x) c → ∀ k,
      c.counts.get k + (c.staging.ids k).length = (x.staging.ids k).length := by
    intro ks c hworked k
    rw [hworked.counted k]
    show Counts.zero.get k + (x.staging.ids k).length = _
    rw [Counts.zero, ByKind.get_all, Nat.zero_add]
  have hstart := (Steps.refl x).idle (Commit.idle_start x)
  cases h : Commit.run (Commit.start x) with
  | ok u c =>
    obtain ⟨hworked, hnil⟩ := Commit.run_eq_ok hfits h
    have hrun := commitAll_of_ok hsize h
    rw [hrun, Action.after_of_ok hrun]
    exact commitAll_of_done hfits (hstart.trans hworked.steps) hnil (hcounts hworked)
  | error e c =>
    have hrun := commitAll_of_error hsize h
    rcases Commit.run_eq_error hfits h with hwrite | ⟨front, k, back, hall, hworked, hstuck, hnil⟩
    · exact absurd hwrite (hwrites e _ hrun)
    obtain ⟨rfl, hleft, hready⟩ := hstuck
    rw [hrun, Action.after_of_error hrun]
    refine commitAll_of_stopsAt ⟨hstart.trans hworked.steps, hfits, ?_, hleft, hready, ?_⟩
      (hcounts hworked)
    · intro j hj
      exact hnil j ((mem_front_iff hall j).2 hj)
    · intro j hj
      refine hworked.others j fun hmem => ?_
      rcases List.mem_append.1 hmem with hfront | hlast
      · have := (mem_front_iff hall j).1 hfront
        omega
      · rw [List.mem_singleton.1 hlast] at hj
        omega

/-- The index after a commit that commits exactly what is due is determined by what was pending. -/
theorem lookup?_of_commitsExactly {s : Store} {g g' : Staging} {host host' : Host}
    {due due' : Kind → PendingRecord → Prop} {z : Session}
    (hsame : ∀ k id, g'.get? k id = g.get? k id) (hdue : ∀ k r, due k r ↔ due' k r)
    (hy : CommitsExactly due ⟨host, s, g⟩ y) (hz : CommitsExactly due' ⟨host', s, g'⟩ z)
    (hkeyed : ∀ k id r, g.get? k id = some r → r.id = id) (k : Kind) (id : ObjectId) :
    z.store.lookup? k id = y.store.lookup? k id := by
  cases hr : g.get? k id with
  | none => rw [hy.others k id hr, hz.others k id ((hsame k id).trans hr)]
  | some r =>
    have hr' := (hsame k id).trans hr
    by_cases hdue' : due k r
    · obtain ⟨e, he, hlookup⟩ := (hy.committed k id r hr hdue').2.entry
      obtain ⟨e', he', hlookup'⟩ := (hz.committed k id r hr' ((hdue k r).1 hdue')).2.entry
      rw [he] at he'
      cases he'
      rw [← hkeyed k id r hr, hlookup, hlookup']
    · have hy' := (hy.pending k id r hr hdue').2
      have hz' := (hz.pending k id r hr' fun h => hdue' ((hdue k r).2 h)).2
      rw [Store.contains_eq, Option.isSome_eq_false_iff, Option.isNone_iff_eq_none] at hy' hz'
      rw [hy', hz']

/-- A commit whose writes succeed commits the least set of records that is closed under readiness,
kind after kind up to the first with records outside it, which it reports. What is in the index
then does not depend on the order in which the records were staged. -/
theorem commitAll_commits_due {s : Store} {g : Staging} (hg : Staged s g) (host : Host)
    (hwrites : WritesSucceed ⟨host, s, g⟩) :
    CommitsExactly (Due s g) ⟨host, s, g⟩ (commitAll.after ⟨host, s, g⟩) ∧
      Reports s g (commitAll ⟨host, s, g⟩) ∧
      ∀ g' host', Staged s g' → (∀ k id, g'.get? k id = g.get? k id) →
        WritesSucceed ⟨host', s, g'⟩ → ∀ k id,
          (commitAll.after ⟨host', s, g'⟩).store.lookup? k id =
            (commitAll.after ⟨host, s, g⟩).store.lookup? k id := by
  obtain ⟨hexactly, hreports⟩ := commitAll_exact (x := ⟨host, s, g⟩) hg.fits hwrites
  refine ⟨hexactly, hreports, ?_⟩
  intro g' host' hg' hsame hwrites'
  have hexactly' := (commitAll_exact (x := ⟨host', s, g'⟩) hg'.fits hwrites').1
  refine lookup?_of_commitsExactly hsame ?_ hexactly hexactly' hg.fits.keyed
  intro k r
  exact ⟨Due.congr hsame, Due.congr fun k id => (hsame k id).symm⟩

/-- An event folder below another one. -/
def folderIn (id parent : ObjectId) : PendingRecord :=
  ⟨({ id := id, objectClass := .eventFolder } : Object).setEdge "folder" [parent], []⟩

/-- A folder that is staged before its parent, and one that is its own parent. -/
def tangle : Staging :=
  ((({} : Staging).add .eventFolder (folderIn ⟨"c", by decide⟩ folder.id) none).add .eventFolder
    (folderIn ⟨"l", by decide⟩ ⟨"l", by decide⟩) none).add .eventFolder folder none

theorem staged_tangle : Staged bare tangle :=
  .stage (k := .eventFolder) (r := folder) (.stage (k := .eventFolder)
    (r := folderIn ⟨"l", by decide⟩ ⟨"l", by decide⟩) (.stage (k := .eventFolder)
      (r := folderIn ⟨"c", by decide⟩ folder.id) .empty rfl) rfl) rfl

theorem commitAll_commits_due_tangle :
    WritesSucceed ⟨bareHost, bare, tangle⟩ ∧
      CommitsExactly (Due bare tangle) ⟨bareHost, bare, tangle⟩
        (commitAll.after ⟨bareHost, bare, tangle⟩) ∧
      Reports bare tangle (commitAll ⟨bareHost, bare, tangle⟩) ∧
      (commitAll.after ⟨bareHost, bare, tangle⟩).staging.ids .eventFolder = [⟨"l", by decide⟩] := by
  have hrun : (match commitAll ⟨bareHost, bare, tangle⟩ with
      | .error (.unresolved .eventFolder _ _) _ => true
      | _ => false) = true := by decide +kernel
  have hwrites : WritesSucceed ⟨bareHost, bare, tangle⟩ := by
    intro e y h hwrite
    rw [h] at hrun
    cases hwrite <;> cases hrun
  obtain ⟨hexactly, hreports, -⟩ := commitAll_commits_due staged_tangle bareHost hwrites
  exact ⟨hwrites, hexactly, hreports, by decide +kernel⟩

end AudioProject.Staging
