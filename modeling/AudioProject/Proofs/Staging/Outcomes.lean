import AudioProject.Proofs.Staging.Trail

/-
  What a commit comes to, by its parts. `Meets` says something of the result of a part together with
  the moments up to it, one thing if it came through and another for each error. What a ready record
  and the end of the journal meet, every part of a commit meets: `Guards.pass`, `Guards.passes`,
  `Guards.kinds`.
-/

namespace AudioProject.Staging.Commit

open Session

variable {I J : List Session → Commit → Prop} {E : Error → List Session → Commit → Prop}
  {xs ys : List Session} {c : Commit} {k : Kind}

/-- What is said of a result and the moments up to it. -/
def Meets {α : Type} (I : List Session → Commit → Prop) (E : Error → List Session → Commit → Prop)
    (xs : List Session) : EStateM.Result Error Commit α → Prop
  | .ok _ c => I xs c
  | .error e c => E e xs c

theorem Meets.bind {α β : Type} {a : Action Commit Error α} {g : α → Action Commit Error β}
    {f : α → Commit → List Session} (hx : Meets I E (xs ++ ys) (a c))
    (hf : ∀ v c', I (xs ++ ys) c' → Meets J E (xs ++ ys ++ f v c') (g v c')) :
    Meets J E (xs ++ followed ys (a c) f) ((a >>= g) c) := by
  cases h : a c with
  | ok v c' =>
    rw [h] at hx
    rw [Action.bind_of_ok h]
    unfold followed
    rw [← List.append_assoc]
    exact hf v c' hx
  | error e c' =>
    rw [h] at hx
    rw [Action.bind_of_error h]
    exact hx

/-- A part of which only the result matters adds no moments. -/
theorem Meets.map {α β : Type} {a : Action Commit Error α} (f : α → β)
    (h : Meets I E xs (a c)) : Meets I E xs ((a >>= fun v => pure (f v)) c) := by
  cases hresult : a c with
  | ok v c' =>
    rw [hresult] at h
    rw [Action.bind_of_ok hresult]
    exact h
  | error e c' =>
    rw [hresult] at h
    rw [Action.bind_of_error hresult]
    exact h

/-- What the commit of a record and the end of a journal keep up. -/
structure Guards (I : List Session → Commit → Prop) (E : Error → List Session → Commit → Prop) :
    Prop where
  keyed : ∀ {xs c}, I xs c → c.staging.IsKeyed
  record : ∀ {xs c k r}, I xs c → c.staging.get? k r.id = some r → isReady c.store k r = true →
    Meets I E (xs ++ recordTrail k r c) (commitRecord k r c)
  stop : ∀ {xs c}, I xs c → Meets (fun xs c => ∀ k ids, E (.unresolved k ids c.counts) xs c) E
    (xs ++ [((close .incomplete).after c).toSession]) (close .incomplete c)

namespace Guards

theorem pass (h : Guards I E) (k : Kind) (ids : List ObjectId) (hc : I xs c) :
    Meets I E (xs ++ passTrail k ids c) (pass k ids c) := by
  induction ids generalizing xs c with
  | nil =>
    show I (xs ++ []) c
    rwa [List.append_nil]
  | cons id ids ih =>
    unfold passTrail
    cases hr : c.staging.get? k id with
    | none =>
      rw [pass_cons_of_not_ready ids fun r hr' => by cases hr.symm.trans hr']
      exact ih hc
    | some r =>
      dsimp only
      obtain rfl := h.keyed hc k id r hr
      cases hready : isReady c.store k r with
      | false =>
        rw [pass_cons_of_not_ready ids fun r' hr' => by
          cases hr.symm.trans hr'
          exact hready]
        exact ih hc
      | true =>
        rw [if_pos rfl, pass_cons_of_ready ids hr hready]
        exact (h.record hc hr hready).bind fun _ c₁ hc₁ => (ih hc₁).map _

theorem passes (h : Guards I E) (k : Kind) (n : Nat) (hc : I xs c) :
    Meets I E (xs ++ passesTrail k n c) (passes k n c) := by
  induction n generalizing xs c with
  | zero =>
    show I (xs ++ []) c
    rwa [List.append_nil]
  | succ n ih =>
    rw [passes_succ]
    unfold passesTrail
    refine (h.pass k _ hc).bind fun progress c₁ hc₁ => ?_
    rw [Action.bind_of_ok (get_eq_ok c₁)]
    by_cases hempty : (c₁.staging.ids k).isEmpty = true
    · rw [if_pos hempty, if_pos hempty, List.append_nil]
      exact hc₁
    rw [if_neg hempty, if_neg hempty]
    cases progress with
    | true => exact ih hc₁
    | false =>
      rw [if_neg (by simp), if_neg (by simp)]
      have hstop := h.stop hc₁
      cases hclose : close .incomplete c₁ with
      | ok u c₂ =>
        rw [hclose] at hstop
        rw [Action.bind_of_ok hclose]
        exact hstop k _
      | error e c₂ =>
        rw [hclose] at hstop
        rw [Action.bind_of_error hclose]
        exact hstop

theorem kinds (h : Guards I E) (ks : List Kind) (hc : I xs c) :
    Meets I E (xs ++ kindsTrail ks c) (kinds ks c) := by
  induction ks generalizing xs c with
  | nil =>
    show I (xs ++ []) c
    rwa [List.append_nil]
  | cons k ks ih =>
    rw [kinds_cons]
    exact (h.passes k _ hc).bind fun _ c₁ hc₁ => ih hc₁

/-- A commit meets what its parts do, and in the end what closing the journal does. -/
theorem run (h : Guards I E)
    (hclose : ∀ {xs c}, I xs c →
      Meets J E (xs ++ [((close .committed).after c).toSession]) (close .committed c))
    (hc : I xs c) : Meets J E (xs ++ runTrail c) (run c) :=
  (h.kinds Kind.all hc).bind fun _ _ hc₁ => hclose hc₁

end Guards

end AudioProject.Staging.Commit
