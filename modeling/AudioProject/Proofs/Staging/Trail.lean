import AudioProject.Proofs.Staging.Closure
import AudioProject.Proofs.Store.Documents

/-
  The moments of a commit. `trail` follows a commit and keeps each session on the way: after a
  document is written, after the journal is, and where a write fails. From one moment to the next
  either one document comes to a place where nothing was, or no document changes (`Link`); and a
  document of a kind only comes while nothing of the kinds before it is pending. `trail_commitAll`
  says so of a whole commit, whatever it comes to, so what one link keeps holds at every moment.
-/

namespace AudioProject

open FileTree Store

namespace Staging

/-- Records stand under their own ids. Staging sees to that, for whichever store. -/
def IsKeyed (g : Staging) : Prop := ∀ k id r, g.get? k id = some r → r.id = id

theorem IsKeyed.stage {g g' : Staging} {s : Store} {k : Kind} {r : PendingRecord} (h : g.IsKeyed)
    (hstage : g.stage s k r = .ok g') : g'.IsKeyed := by
  obtain ⟨-, -, -, path, rfl, -⟩ := stage_eq_ok hstage
  intro j id q hq
  rw [get?_add] at hq
  split at hq
  · next hnew => exact Option.some.inj hq ▸ hnew.2
  · exact h j id q hq

theorem IsKeyed.take {g : Staging} (h : g.IsKeyed) (k : Kind) (r : PendingRecord) :
    (g.take k r).IsKeyed := by
  intro j id q hq
  rw [get?_take] at hq
  split at hq
  · cases hq
  · exact h j id q hq

end Staging

namespace Session

open Staging

variable {base : Location} {x y z : Session} {xs ys : List Session} {k : Kind}

/-! ## From one moment to the next -/

/-- A ready record is written: it leaves the staging, its entry is in the index, and its document
comes to its place. -/
structure Placed (base : Location) (k : Kind) (r : PendingRecord) (x y : Session) : Prop where
  pending : x.staging.get? k r.id = some r
  ready : isReady x.store k r = true
  entry : ∃ e, IndexEntry.ofObject? k r.object = some e ∧ y.store = x.store.insert k e
  staging : y.staging = x.staging.take k r
  document : ∃ dir, r.object.objectClass.directory? = some dir ∧
    Proper x.store.layout.root (namesOf dir r.id.fileName) ∧
    Comes (base ++ namesOf dir r.id.fileName) (x.store.documentBytes r.objects) x.host.files
      y.host.files

/-- The next moment: nothing of the project changed, or a record was written while no record of an
earlier kind was pending. -/
inductive Link (base : Location) (x y : Session) : Prop where
  | idle (h : Idle x y)
  | placed {k : Kind} {r : PendingRecord} (h : Placed base k r x y)
    (earlier : ∀ j : Kind, j.rank < k.rank → x.staging.ids j = [])

/-- The files of a session are those of its project. -/
def AnchoredAt (base : Location) (x : Session) : Prop := Anchored x.host.files x.store.layout base

theorem Link.layout (h : Link base x y) : y.store.layout = x.store.layout := by
  cases h with
  | idle h => rw [h.store]
  | placed h _ =>
    obtain ⟨e, -, hstore⟩ := h.entry
    rw [hstore]
    rfl

theorem Link.keyed (h : Link base x y) (hx : x.staging.IsKeyed) : y.staging.IsKeyed := by
  cases h with
  | idle h =>
    rw [h.staging]
    exact hx
  | placed h _ =>
    rw [h.staging]
    exact hx.take _ _

theorem Link.sound (h : Link base x y) (hx : x.staging.Sound) : y.staging.Sound := by
  cases h with
  | idle h =>
    rw [h.staging]
    exact hx
  | placed h _ =>
    rw [h.staging]
    exact hx.take h.pending

theorem Link.ids_sublist (h : Link base x y) (k : Kind) :
    (y.staging.ids k).Sublist (x.staging.ids k) := by
  cases h with
  | idle h => rw [h.staging]
  | placed h _ =>
    rw [h.staging]
    exact ids_take _ _ _ _

/-- Moments in a row, the last of which is the last of the list. -/
inductive Trail (base : Location) : Session → List Session → Session → Prop where
  | nil (x : Session) : Trail base x [] x
  | cons {x y z : Session} {ys : List Session} (h : Link base x y) (hy : AnchoredAt base y)
    (rest : Trail base y ys z) : Trail base x (y :: ys) z

namespace Trail

theorem single (h : Link base x y) (hy : AnchoredAt base y) : Trail base x [y] y :=
  .cons h hy (.nil y)

theorem append (h : Trail base x xs y) (h' : Trail base y ys z) : Trail base x (xs ++ ys) z := by
  induction h with
  | nil => exact h'
  | cons hlink hanchored _ ih => exact .cons hlink hanchored (ih h')

/-- What a link keeps holds at the end. -/
theorem keeps {P : Session → Prop} (h : Trail base x xs y)
    (hP : ∀ {x y}, Link base x y → AnchoredAt base y → P x → P y) (hx : P x) : P y := by
  induction h with
  | nil => exact hx
  | cons hlink hanchored _ ih => exact ih (hP hlink hanchored hx)

theorem anchored (h : Trail base x xs y) (hx : AnchoredAt base x) : AnchoredAt base y :=
  h.keeps (fun _ hy _ => hy) hx

theorem keyed (h : Trail base x xs y) (hx : x.staging.IsKeyed) : y.staging.IsKeyed :=
  h.keeps (P := fun z => z.staging.IsKeyed) (fun hlink _ => hlink.keyed) hx

theorem ids_sublist (h : Trail base x xs y) (k : Kind) :
    (y.staging.ids k).Sublist (x.staging.ids k) :=
  h.keeps (P := fun z => (z.staging.ids k).Sublist (x.staging.ids k))
    (fun hlink _ hz => (hlink.ids_sublist k).trans hz) (.refl _)

theorem ids_eq_nil (h : Trail base x xs y) {k : Kind} (hx : x.staging.ids k = []) :
    y.staging.ids k = [] := by
  have hsublist := h.ids_sublist k
  rw [hx] at hsublist
  exact List.sublist_nil.1 hsublist

/-- The last moment is where the trail ends. -/
theorem getLast (h : Trail base x xs y) : (x :: xs).getLast? = some y := by
  induction h with
  | nil => rfl
  | cons _ _ _ ih => rw [List.getLast?_cons_cons, ih]

/-- What a link keeps holds at every later moment. -/
theorem forall_mem {P : Session → Prop} (h : Trail base x xs y)
    (hP : ∀ {x y}, Link base x y → AnchoredAt base y → P x → P y) (hx : P x) :
    ∀ z ∈ x :: xs, P z := by
  induction h with
  | nil => simpa using hx
  | cons hlink hanchored _ ih =>
    intro z hz
    rcases List.mem_cons.1 hz with rfl | hz
    · exact hx
    · exact ih (hP hlink hanchored hx) z hz

/-- Any two moments in a row are linked; a trail leads to them, and one goes on from there. -/
theorem split {front back : List Session} {u v : Session} (h : Trail base x xs y)
    (hsplit : x :: xs = front ++ u :: v :: back) :
    (∃ ys, Trail base x ys u) ∧ Link base u v ∧ AnchoredAt base v ∧ Trail base v back y := by
  induction h generalizing front with
  | nil =>
    have hlength := congrArg List.length hsplit
    simp only [List.length_append, List.length_cons, List.length_nil] at hlength
    omega
  | @cons x z y ys hlink hanchored rest ih =>
    cases front with
    | nil =>
      cases hsplit
      exact ⟨⟨[], .nil _⟩, hlink, hanchored, rest⟩
    | cons x' front =>
      obtain ⟨⟨zs, hzs⟩, hrest⟩ := ih (List.cons.inj hsplit).2
      exact ⟨⟨_, .cons hlink hanchored hzs⟩, hrest⟩

end Trail

/-- What a commit needs to work on the records of a kind. -/
structure Working (base : Location) (k : Kind) (x : Session) : Prop where
  anchored : AnchoredAt base x
  keyed : x.staging.IsKeyed
  earlier : ∀ j : Kind, j.rank < k.rank → x.staging.ids j = []

theorem Working.trail (h : Working base k x) (htrail : Trail base x xs y) : Working base k y :=
  ⟨htrail.anchored h.anchored, htrail.keyed h.keyed, fun j hj => htrail.ids_eq_nil (h.earlier j hj)⟩

end Session

namespace Staging.Commit

open Session

variable {base : Location} {c c' : Commit} {k : Kind} {r : PendingRecord}

/-! ## The moments of a commit -/

/-- The moments of an action, and those of what follows if it came through. -/
def followed {α : Type} (xs : List Session) (result : EStateM.Result Error Commit α)
    (f : α → Commit → List Session) : List Session :=
  match result with
  | .ok a c => xs ++ f a c
  | .error _ _ => xs

def recordTrail (k : Kind) (r : PendingRecord) (c : Commit) : List Session :=
  match write k r c with
  | .ok path c₁ =>
    let c₂ : Commit := { c₁ with staging := c₁.staging.take k r }
    [c₂.toSession, ((append (.objectWrite r.object.objectClass.name r.id path)).after c₂).toSession]
  | .error _ c₁ => [c₁.toSession]

def passTrail (k : Kind) : List ObjectId → Commit → List Session
  | [], _ => []
  | id :: ids, c =>
    match c.staging.get? k id with
    | none => passTrail k ids c
    | some r =>
      if isReady c.store k r then
        followed (recordTrail k r c) (commitRecord k r c) fun _ => passTrail k ids
      else passTrail k ids c

def passesTrail (k : Kind) : Nat → Commit → List Session
  | 0, _ => []
  | n + 1, c =>
    followed (passTrail k (c.staging.ids k) c) (pass k (c.staging.ids k) c) fun progress c₁ =>
      if (c₁.staging.ids k).isEmpty then []
      else if progress then passesTrail k n c₁
      else [((close .incomplete).after c₁).toSession]

def kindsTrail : List Kind → Commit → List Session
  | [], _ => []
  | k :: ks, c =>
    followed (passesTrail k (c.staging.ids k).length c) (passes k (c.staging.ids k).length c)
      fun _ => kindsTrail ks

def runTrail (c : Commit) : List Session :=
  followed (kindsTrail Kind.all c) (kinds Kind.all c) fun _ c₁ =>
    [((close .committed).after c₁).toSession]

/-! ## Each part follows its trail -/

theorem trail_bind {α β : Type} {a : Action Commit Error α} {g : α → Action Commit Error β}
    {xs : List Session} {f : α → Commit → List Session}
    (hx : Trail base c.toSession xs (a.after c).toSession)
    (hf : ∀ v c', a c = .ok v c' → Trail base c.toSession xs c'.toSession →
      Trail base c'.toSession (f v c') ((g v).after c').toSession) :
    Trail base c.toSession (followed xs (a c) f) ((a >>= g).after c).toSession := by
  cases h : a c with
  | ok v c' =>
    rw [Action.after_of_ok h] at hx
    rw [Action.after_bind_of_ok h]
    exact hx.append (hf v c' h hx)
  | error e c' =>
    rw [Action.after_of_error (Action.bind_of_error h g)]
    rwa [Action.after_of_error h] at hx

theorem anchored_append (d : Journal.Deed) (h : AnchoredAt base c.toSession) :
    AnchoredAt base ((append d).after c).toSession := by
  have hidle := idle_append d c
  unfold AnchoredAt at h ⊢
  rw [hidle.store]
  refine h.keeps hidle.documents ?_
  rw [after_append]
  exact Journal.wellFormed_save h.well

theorem anchored_close (p : Journal.Phase) (h : AnchoredAt base c.toSession) :
    AnchoredAt base ((close p).after c).toSession := by
  have hidle := idle_close p c
  unfold AnchoredAt at h ⊢
  rw [hidle.store]
  refine h.keeps hidle.documents ?_
  rw [after_close]
  exact Journal.wellFormed_close h.well

theorem trail_close (p : Journal.Phase) (h : AnchoredAt base c.toSession) :
    Trail base c.toSession [((close p).after c).toSession] ((close p).after c).toSession :=
  .single (.idle (idle_close p c)) (anchored_close p h)

theorem wellFormed_write (h : c.host.files.WellFormed) :
    ((write k r).after c).host.files.WellFormed := by
  have hfiles : ((write k r).after c).host.files =
      (c.store.commit k r.objects).after c.host.files := by
    refine (Action.view_after_bind (fun c : Commit => c.host.files)
      (x := onHost Error.store (Host.onFiles id (c.store.commit k r.objects)))
      (fun _ _ => rfl) c).trans ?_
    rw [onHost, Action.after_within, Host.onFiles, Action.after_within]
  rw [hfiles]
  exact wellFormed_commit h

/-- A document that is written comes to the place of its record. -/
theorem placed_of_write (h : AnchoredAt base c.toSession)
    (hpending : c.staging.get? k r.id = some r) (hready : isReady c.store k r = true) {path : Path}
    (hwrite : write k r c = .ok path c') :
    c.store.layout.objectPath? r.object.objectClass r.id = some path ∧ ∃ e t,
      c' = { c with host := { c.host with files := t }, store := c.store.insert k e } ∧
        c.store.writeDocument r.objects c.host.files = .ok path t ∧
        Placed base k r c.toSession (written k r e t c).toSession ∧
        AnchoredAt base (written k r e t c).toSession := by
  obtain ⟨e, t, he, hdocument, rfl⟩ := write_eq_ok hwrite
  obtain ⟨dir, hdir, hpath, hproper, hcomes, hanchored⟩ := writeDocument_comes h hdocument
  refine ⟨?_, e, t, rfl, hdocument, ⟨hpending, hready, ⟨e, he, rfl⟩, rfl, dir, hdir, hproper,
    hcomes⟩, hanchored⟩
  unfold Layout.objectPath?
  rw [hdir, hpath]
  rfl

theorem trail_record (h : Working base k c.toSession) (hpending : c.staging.get? k r.id = some r)
    (hready : isReady c.store k r = true) :
    Trail base c.toSession (recordTrail k r c) ((commitRecord k r).after c).toSession := by
  unfold recordTrail
  cases hwrite : write k r c with
  | error e c₁ =>
    have hwell : c₁.host.files.WellFormed := by
      rw [← Action.after_of_error hwrite]
      exact wellFormed_write h.anchored.well
    rw [show (commitRecord k r).after c = c₁ from
      Action.after_of_error (Action.bind_of_error hwrite _)]
    obtain ⟨hidle, -⟩ := write_eq_error hwrite
    refine .single (.idle hidle) ?_
    unfold AnchoredAt
    rw [hidle.store]
    exact Anchored.keeps h.anchored hidle.documents hwell
  | ok path c₁ =>
    obtain ⟨-, e, t, rfl, -, hplaced, hanchored⟩ :=
      placed_of_write h.anchored hpending hready hwrite
    have hlast : ((commitRecord k r).after c).toSession =
        ((append (.objectWrite r.object.objectClass.name r.id path)).after
          (written k r e t c)).toSession := by
      unfold commitRecord
      rw [Action.after_bind_of_ok hwrite]
      exact Action.view_after_bind Commit.toSession
        (x := append (.objectWrite r.object.objectClass.name r.id path)) (fun _ _ => rfl)
        (written k r e t c)
    rw [hlast]
    exact .cons (.placed hplaced h.earlier) hanchored
      (.single (.idle (idle_append _ (written k r e t c))) (anchored_append _ hanchored))

theorem trail_pass (ids : List ObjectId) (h : Working base k c.toSession) :
    Trail base c.toSession (passTrail k ids c) ((pass k ids).after c).toSession := by
  induction ids generalizing c with
  | nil => exact .nil _
  | cons id ids ih =>
    unfold passTrail
    cases hr : c.staging.get? k id with
    | none =>
      rw [show (pass k (id :: ids)).after c = (pass k ids).after c by
        unfold Action.after
        rw [pass_cons_of_not_ready ids fun r hr' => by cases hr.symm.trans hr']]
      exact ih h
    | some r =>
      dsimp only
      obtain rfl := h.keyed k id r hr
      cases hready : isReady c.store k r with
      | false =>
        rw [show (pass k (r.id :: ids)).after c = (pass k ids).after c by
          unfold Action.after
          rw [pass_cons_of_not_ready ids fun r' hr' => by
            cases hr.symm.trans hr'
            exact hready]]
        exact ih h
      | true =>
        rw [if_pos rfl, show (pass k (r.id :: ids)).after c =
            (commitRecord k r >>= fun _ => pass k ids >>= fun _ => pure true).after c by
          unfold Action.after
          rw [pass_cons_of_ready ids hr hready]]
        refine trail_bind (trail_record h hr hready) fun _ c₁ _ htrail => ?_
        rw [Action.after_bind_of_still fun _ _ => rfl]
        exact ih (h.trail htrail)

/-- A pass that commits something leaves fewer records. -/
theorem length_ids_of_pass {ids : List ObjectId} (h : Working base k c.toSession)
    (hpass : pass k ids c = .ok true c') :
    (c'.staging.ids k).length < (c.staging.ids k).length := by
  induction ids generalizing c with
  | nil => cases hpass
  | cons id ids ih =>
    by_cases hskip : ∀ r, c.staging.get? k id = some r → isReady c.store k r = false
    · rw [pass_cons_of_not_ready ids hskip] at hpass
      exact ih h hpass
    · obtain ⟨r, hr, hready⟩ : ∃ r, c.staging.get? k id = some r ∧ isReady c.store k r = true := by
        simpa using hskip
      obtain rfl := h.keyed k id r hr
      rw [pass_cons_of_ready ids hr hready] at hpass
      obtain ⟨_, c₁, hcommit, hpass⟩ := Action.bind_eq_ok.1 hpass
      obtain ⟨_, c₂, hrest, hpass⟩ := Action.bind_eq_ok.1 hpass
      cases hpass
      have hfirst := Worked.length_ids_of_wrote (commitRecord_eq_ok hr hready hcommit).1 k
      have htrail := trail_record h hr hready
      rw [Action.after_of_ok hcommit] at htrail
      have hthen := trail_pass ids (h.trail htrail)
      rw [Action.after_of_ok hrest] at hthen
      have hle := (hthen.ids_sublist k).length_le
      rw [if_pos rfl] at hfirst
      omega

/-- As many passes as there are records leave none, if they do not fail. -/
theorem ids_of_passes {n : Nat} {u : Unit} (h : Working base k c.toSession)
    (hn : (c.staging.ids k).length ≤ n) (hpasses : passes k n c = .ok u c') :
    c'.staging.ids k = [] := by
  induction n generalizing c with
  | zero =>
    cases hpasses
    exact List.eq_nil_of_length_eq_zero (by omega)
  | succ n ih =>
    rw [passes_succ] at hpasses
    obtain ⟨progress, c₁, hpass, hpasses⟩ := Action.bind_eq_ok.1 hpasses
    rw [Action.bind_of_ok (get_eq_ok c₁)] at hpasses
    by_cases hempty : (c₁.staging.ids k).isEmpty = true
    · rw [if_pos hempty] at hpasses
      cases hpasses
      exact List.isEmpty_iff.1 hempty
    rw [if_neg hempty] at hpasses
    cases progress with
    | true =>
      have hlength := length_ids_of_pass h hpass
      have htrail := trail_pass (c.staging.ids k) h
      rw [Action.after_of_ok hpass] at htrail
      exact ih (h.trail htrail) (by omega) hpasses
    | false =>
      rw [if_neg (by simp)] at hpasses
      obtain ⟨_, c₂, -, hpasses⟩ := Action.bind_eq_ok.1 hpasses
      cases hpasses

theorem trail_passes (n : Nat) (h : Working base k c.toSession) :
    Trail base c.toSession (passesTrail k n c) ((passes k n).after c).toSession := by
  induction n generalizing c with
  | zero => exact .nil _
  | succ n ih =>
    have hafter : (passes k (n + 1)).after c =
        (pass k (c.staging.ids k) >>= fun progress => get >>= fun c₁ =>
          if (c₁.staging.ids k).isEmpty then pure ()
          else if progress then passes k n
          else close .incomplete >>= fun _ => get >>= fun c₂ =>
            throw (.unresolved k (c₁.staging.ids k) c₂.counts)).after c := by
      unfold Action.after
      rw [passes_succ]
    rw [hafter]
    refine trail_bind (trail_pass _ h) fun progress c₁ _ htrail => ?_
    rw [Action.after_bind_of_ok (get_eq_ok c₁)]
    by_cases hempty : (c₁.staging.ids k).isEmpty = true
    · rw [if_pos hempty, if_pos hempty]
      exact .nil _
    rw [if_neg hempty, if_neg hempty]
    cases progress with
    | true => exact ih (h.trail htrail)
    | false =>
      rw [if_neg (by simp), if_neg (by simp),
        Action.after_bind_of_still fun _ _ => rfl]
      exact trail_close _ (htrail.anchored h.anchored)

/-- When the work on a kind begins, only records of the kinds that follow are pending. -/
theorem trail_kinds {ks : List Kind} (hks : ks.Pairwise fun j k => j.rank < k.rank)
    (hanchored : AnchoredAt base c.toSession) (hkeyed : c.staging.IsKeyed)
    (hearlier : ∀ k ∈ ks, ∀ j : Kind, j.rank < k.rank → c.staging.ids j = [] ∨ j ∈ ks) :
    Trail base c.toSession (kindsTrail ks c) ((kinds ks).after c).toSession := by
  induction ks generalizing c with
  | nil => exact .nil _
  | cons k ks ih =>
    obtain ⟨hfirst, hrest⟩ := List.pairwise_cons.1 hks
    have hworking : Working base k c.toSession := by
      refine ⟨hanchored, hkeyed, fun j hj => ?_⟩
      rcases hearlier k List.mem_cons_self j hj with hnil | hmem
      · exact hnil
      · rcases List.mem_cons.1 hmem with rfl | hmem
        · omega
        · have := hfirst j hmem
          omega
    have hafter : (kinds (k :: ks)).after c =
        (passes k (c.staging.ids k).length >>= fun _ => kinds ks).after c := by
      unfold Action.after
      rw [kinds_cons]
    rw [hafter]
    refine trail_bind (trail_passes _ hworking) fun _ c₁ hpasses htrail => ?_
    refine ih hrest (htrail.anchored hanchored) (htrail.keyed hkeyed) fun j hj i hi => ?_
    rcases hearlier j (List.mem_cons_of_mem _ hj) i hi with hnil | hmem
    · exact Or.inl (htrail.ids_eq_nil hnil)
    · rcases List.mem_cons.1 hmem with rfl | hmem
      · exact Or.inl (ids_of_passes hworking (Nat.le_refl _) hpasses)
      · exact Or.inr hmem

theorem trail_run (hanchored : AnchoredAt base c.toSession) (hkeyed : c.staging.IsKeyed) :
    Trail base c.toSession (runTrail c) (run.after c).toSession := by
  refine trail_bind (trail_kinds Kind.pairwise_rank hanchored hkeyed fun _ _ j _ =>
    Or.inr (Kind.mem_all j)) fun _ c₁ _ htrail => ?_
  exact trail_close _ (htrail.anchored hanchored)

end Staging.Commit

namespace Staging

open Session

variable {base : Location}

/-- The moments of a commit, each with what was done up to it. -/
def trail (x : Session) : List Session :=
  if x.staging.size = 0 then []
  else (Commit.start x).toSession :: Commit.runTrail (Commit.start x)

/-- Each moment of a commit follows on the one before, and the last is what the commit comes to. -/
theorem trail_commitAll {x : Session} (hanchored : AnchoredAt base x)
    (hkeyed : x.staging.IsKeyed) : Trail base x (trail x) (commitAll.after x) := by
  unfold trail
  by_cases hsize : x.staging.size = 0
  · rw [if_pos hsize, Action.after_of_ok (commitAll_of_empty hsize)]
    exact .nil x
  rw [if_neg hsize]
  have hrun := Commit.trail_run (c := Commit.start x) hanchored hkeyed
  refine .cons (.idle (Commit.idle_start x)) hanchored ?_
  cases h : Commit.run (Commit.start x) with
  | ok u c =>
    rw [Action.after_of_ok h] at hrun
    rw [Action.after_of_ok (commitAll_of_ok hsize h)]
    exact hrun
  | error e c =>
    rw [Action.after_of_error h] at hrun
    rw [Action.after_of_error (commitAll_of_error hsize h)]
    exact hrun

end Staging

end AudioProject
