import AudioProject.Proofs.Files.Descent

/-
  What making directories brings about. A path that goes down by plain names from one that leads to
  `base` is made as directories on the way, and nothing else comes to stand anywhere
  (`sameAt_createDirs_descend`).
-/

namespace AudioProject

open FileTree AudioProject.Path

variable {base place : Location} {t t' : FileTree}

/-! ## Walks that make directories -/

namespace FileTree

/-- The same stands at a place in both trees. -/
def SameAt (place : Location) (t t' : FileTree) : Prop := t'.node? place = t.node? place

theorem SameAt.trans {t'' : FileTree} (h : SameAt place t t') (h' : SameAt place t' t'') :
    SameAt place t t'' := Eq.trans h' h

theorem sameAt_enter {here : Location} {piece : String}
    (h : ∀ j, t.stepTo here piece = .ok j → j ≠ place) :
    SameAt place t ((enter here piece).after t) := by
  cases hstep : t.stepTo here piece with
  | error e =>
    rw [Action.after_of_error (t := t) (e := e) (by simp only [enter, hstep])]
    rfl
  | ok j =>
    cases hnode : t.node? j with
    | none =>
      have henter : enter here piece t = .ok j (t.put j .directory) := by
        simp only [enter, hstep, hnode]
      have hj : j ≠ [] := by
        rintro rfl
        cases hnode
      rw [Action.after_of_ok henter, SameAt, node?_put t hj, if_neg (h j hstep)]
    | some n =>
      rw [Action.after_of_ok (t := t) (a := j) (by cases n <;> simp only [enter, hstep, hnode])]
      rfl

/-- Names from `here` down: nothing comes to stand but directories on the way. -/
theorem sameAt_enterAll_names {here : Location} {names : List String}
    (hnames : ∀ n ∈ names, IsName n) (hplace : ¬ place <+: here ++ names) :
    SameAt place t ((enterAll here names).after t) := by
  induction names generalizing here t with
  | nil => rfl
  | cons name names ih =>
    have hname := hnames name List.mem_cons_self
    have hstep : ∀ {j}, t.stepTo here name = .ok j → j = here ++ [name] := fun h =>
      ((stepTo_name hname).1 h).2.2
    unfold enterAll
    refine Action.after_bind (R := SameAt place) .trans
      (sameAt_enter fun j hj hsame => ?_) fun j t₁ henter => ?_
    · refine hplace (hsame ▸ hstep hj ▸ ⟨names, ?_⟩)
      simp
    · have hj : j = here ++ [name] := by
        unfold enter at henter
        split at henter
        · cases henter
        next j' hj' =>
        rw [← hstep hj']
        split at henter <;> cases henter <;> rfl
      subst hj
      exact ih (fun n hn => hnames n (List.mem_cons_of_mem _ hn)) (by simpa using hplace)

/-- Where a path leads somewhere, only that place can be missing. -/
theorem enterAll_of_walk {here : Location} {pieces : List String}
    (hwalk : pieces.foldlM t.stepTo here = .ok base) :
    ∃ t₁, enterAll here pieces t = .ok base t₁ ∧
      ∀ place, place ≠ base → SameAt place t t₁ := by
  induction pieces generalizing here with
  | nil =>
    cases hwalk
    exact ⟨t, rfl, fun _ _ => rfl⟩
  | cons piece pieces ih =>
    rw [List.foldlM_cons, AudioProject.bind_eq_ok] at hwalk
    obtain ⟨next, hnext, hrest⟩ := hwalk
    cases hnode : t.node? next with
    | some n =>
      obtain ⟨t₁, henter, hnodes⟩ := ih hrest
      refine ⟨t₁, ?_, hnodes⟩
      unfold enterAll
      exact Action.bind_eq_ok.2 ⟨next, t, by cases n <;> simp only [enter, hnext, hnode], henter⟩
    | none =>
      -- nothing goes on from a place where nothing stands
      have hlast : pieces = [] := by
        cases pieces with
        | nil => rfl
        | cons _ _ =>
          rw [List.foldlM_cons, AudioProject.bind_eq_ok] at hrest
          obtain ⟨_, hstep, -⟩ := hrest
          rw [(stepTo_eq_ok.1 hstep).1] at hnode
          cases hnode
      subst hlast
      cases hrest
      have hne : base ≠ [] := by
        rintro rfl
        cases hnode
      refine ⟨t.put base .directory, ?_, fun place hplace => ?_⟩
      · unfold enterAll
        exact Action.bind_eq_ok.2 ⟨base, t.put base .directory,
          by simp only [enter, hnext, hnode], rfl⟩
      · rw [SameAt, node?_put t hne, if_neg (Ne.symm hplace)]

theorem enterAll_append (here : Location) (xs ys : List String) :
    enterAll here (xs ++ ys) = enterAll here xs >>= fun j => enterAll j ys := by
  induction xs generalizing here with
  | nil => exact (pure_bind _ _).symm
  | cons x xs ih =>
    show (enter here x >>= fun j => enterAll j (xs ++ ys)) =
      (enter here x >>= fun j => enterAll j xs) >>= fun j => enterAll j ys
    simp only [bind_assoc, ih]

theorem sameAt_createDirs {p : Path}
    (h : SameAt place t ((enterAll (t.start p) p.pieces).after t)) :
    SameAt place t ((createDirs p).after t) := by
  unfold createDirs
  split
  · rfl
  refine Action.after_bind (R := SameAt place) .trans ?_ fun _ t₁ hread => ?_
  · rw [Action.after_reading]
    rfl
  obtain rfl : t₁ = t := by rw [← Action.after_of_ok hread, Action.after_reading]
  refine Action.after_bind (R := SameAt place) .trans rfl fun _ _ hget => ?_
  cases hget
  refine Action.after_bind (R := SameAt place) .trans h fun _ t₂ _ => ?_
  refine Action.after_bind (R := SameAt place) .trans rfl fun _ _ hget => ?_
  cases hget
  split <;> rfl

end FileTree

/-- The pieces of a path that goes down by plain names end in these names. -/
theorem Path.pieces_descend (p : Path) {name : String} {names : List String}
    (hnames : ∀ n ∈ name :: names, IsName n) :
    ∃ front, (p.descend (name :: names)).pieces = front ++ name :: names ∧
      (p.pieces = front ∨ p.pieces = front ++ [""]) := by
  have hname := hnames name List.mem_cons_self
  obtain ⟨front, hjoin, hp⟩ := p.pieces_join hname.noSlash
  cases names with
  | nil => exact ⟨front, hjoin, hp⟩
  | cons next names =>
    have hrest : ∀ n ∈ next :: names, IsName n := fun n hn =>
      hnames n (List.mem_cons_of_mem _ hn)
    obtain ⟨front', hdescend, hjoin'⟩ := pieces_descend (p.join name) hrest
    have hfront : front' = front ++ [name] := by
      rcases hjoin' with hjoin' | hjoin'
      · rw [← hjoin', hjoin]
      · have hlast := congrArg List.getLast? (hjoin'.symm.trans hjoin)
        rw [List.getLast?_concat, List.getLast?_concat] at hlast
        exact absurd (Option.some.inj hlast).symm hname.ne_empty
    refine ⟨front, ?_, hp⟩
    rw [hfront, List.append_assoc, List.singleton_append] at hdescend
    exact hdescend
termination_by names.length

namespace FileTree

theorem start_descend (p : Path) {names : List String} (hnames : ∀ n ∈ names, IsName n) :
    t.start (p.descend names) = t.start p := by
  induction names generalizing p with
  | nil => rfl
  | cons name names ih =>
    have hjoin : t.start (p.join name) = t.start p := by
      unfold start
      rw [isAbsolute_join p (hnames name List.mem_cons_self).noSlash]
    exact (ih (p.join name) fun n hn => hnames n (List.mem_cons_of_mem _ hn)).trans hjoin

/-- Below a path that leads to `base`, names are made as directories on the way, and no more. -/
theorem sameAt_createDirs_descend {p : Path} {name : String} {names : List String}
    (hnames : ∀ n ∈ name :: names, IsName n) (hroot : t.walk p = .ok base)
    (hplace : ¬ place <+: base ++ name :: names) :
    SameAt place t ((createDirs (p.descend (name :: names))).after t) := by
  obtain ⟨front, hpieces, hp⟩ := p.pieces_descend hnames
  have hfront : front.foldlM t.stepTo (t.start p) = .ok base := by
    unfold walk at hroot
    rcases hp with hp | hp
    · rwa [hp] at hroot
    · rw [hp] at hroot
      obtain ⟨here, hhere, hstep⟩ := foldlM_append_ok.1 hroot
      rw [foldlM_singleton, stepTo_eq_ok] at hstep
      obtain ⟨-, rfl⟩ := hstep
      exact hhere
  refine sameAt_createDirs ?_
  rw [start_descend p hnames, hpieces, enterAll_append]
  obtain ⟨t₁, henter, hnodes⟩ := enterAll_of_walk hfront
  rw [Action.after_bind_of_ok henter]
  refine (hnodes place ?_).trans (sameAt_enterAll_names hnames hplace)
  rintro rfl
  exact hplace (List.prefix_append _ _)

end FileTree

end AudioProject
