import AudioProject.Proofs.AssetPath
import AudioProject.Proofs.Path
import Mathlib.Data.List.Induction

/-
  Asset paths and their written forms. A text is read exactly if it is written for a list of
  components, with or without a slash at its end, and what is read has these components
  (`ofString?_eq_ok_iff`). So each path has one written form with that slash, which reads as
  itself.

  A path is the root or one component below another path, and all that is asked of it follows this
  form: its parents, its name and its depth. The same can be read off the written form, where
  the slashes are the only marks (`Legible`).
-/

namespace AudioProject

open Text

namespace Text

theorem fields_joined {cs : List String} (hne : cs ≠ []) (hslash : ∀ c ∈ cs, '/' ∉ c.toList) :
    fields '/' (joined "/" cs) = cs := by
  induction cs with
  | nil => exact absurd rfl hne
  | cons c cs ih =>
    rw [List.forall_mem_cons] at hslash
    have hname : fields '/' c = [c] := Path.pieces_eq_name hslash.1
    cases cs with
    | nil => exact hname
    | cons d ds =>
      have hsplit : fields '/' (c ++ "/" ++ joined "/" (d :: ds)) =
          fields '/' c ++ fields '/' (joined "/" (d :: ds)) := Path.pieces_slash c _
      show fields '/' (c ++ "/" ++ joined "/" (d :: ds)) = c :: d :: ds
      rw [hsplit, hname, ih (List.cons_ne_nil d ds) hslash.2]
      rfl

theorem joined_fields (s : String) : joined "/" (fields '/' s) = s := Path.text_of_pieces ⟨s⟩

end Text

theorem IsComponent.noSlash {c : String} (hc : IsComponent c) : '/' ∉ c.toList :=
  fun hslash => (hc.2.2.2 '/' hslash).1 rfl

theorem IsComponent.toList_ne_nil {c : String} (hc : IsComponent c) : c.toList ≠ [] :=
  fun hnil => hc.1 (String.toList_inj.1 hnil)

namespace AssetPath

variable {p q r : AssetPath} {c s t : String} {hc : IsComponent c}

/-! ## One component more -/

/-- The path of a folder in the folder `q`. -/
def push (q : AssetPath) (c : String) (hc : IsComponent c) : AssetPath where
  components := q.components ++ [c]
  valid := by
    intro d hd
    rcases List.mem_append.1 hd with hd | hd
    · exact q.valid d hd
    · exact List.mem_singleton.1 hd ▸ hc

theorem components_push : (q.push c hc).components = q.components ++ [c] := rfl

@[elab_as_elim]
theorem pushInduction {motive : AssetPath → Prop} (root : motive root)
    (push : ∀ q c hc, motive q → motive (push q c hc)) (p : AssetPath) : motive p := by
  obtain ⟨cs, hcs⟩ := p
  induction cs using List.reverseRecOn with
  | nil => exact root
  | append_singleton cs c ih =>
    have hfront : ∀ d ∈ cs, IsComponent d := fun d hd => hcs d (List.mem_append_left _ hd)
    exact push ⟨cs, hfront⟩ c (hcs c (by simp)) (ih hfront)

theorem push_ne_root : q.push c hc ≠ root := by
  intro h
  have hnil : q.components ++ [c] = [] := congrArg components h
  simp at hnil

theorem depth_push : (q.push c hc).depth = q.depth + 1 := by
  unfold depth
  rw [components_push, List.length_append, List.length_singleton]

theorem parent?_push : (q.push c hc).parent? = some q := by
  unfold parent? isRoot push
  simp

theorem name_push : (q.push c hc).name = c := by
  unfold name
  rw [components_push, List.getLast?_concat]
  rfl

theorem above_push_iff : q.Above (r.push c hc) ↔ q = r ∨ q.Above r := by
  unfold Above
  rw [components_push, List.prefix_concat_iff]
  constructor
  · rintro ⟨hwhole | hbegin, hne⟩
    · exact absurd (ext hwhole) hne
    · by_cases hqr : q = r
      · exact Or.inl hqr
      · exact Or.inr ⟨hbegin, hqr⟩
  · have hlast : ∀ {q : AssetPath}, q.components <+: r.components → q ≠ r.push c hc := by
      rintro q hbegin rfl
      have hlen := hbegin.length_le
      rw [components_push, List.length_append, List.length_singleton] at hlen
      omega
    rintro (rfl | ⟨hbegin, -⟩)
    · exact ⟨Or.inr List.prefix_rfl, hlast List.prefix_rfl⟩
    · exact ⟨Or.inr hbegin, hlast hbegin⟩

/-! ## Steps to the root -/

/-- The path after `n` steps to the parent. -/
def climb (p : AssetPath) : Nat → Option AssetPath
  | 0 => some p
  | n + 1 => p.parent?.bind fun q => q.climb n

theorem climb_root_succ (n : Nat) : root.climb (n + 1) = none := rfl

theorem climb_push_succ (n : Nat) : (q.push c hc).climb (n + 1) = q.climb n := by
  rw [climb, parent?_push]
  rfl

/-- The steps to the root are as many as the components. -/
theorem climb_eq_root_iff (n : Nat) : p.climb n = some root ↔ n = p.depth := by
  induction p using pushInduction generalizing n with
  | root =>
    cases n with
    | zero => exact iff_of_true rfl rfl
    | succ n => exact iff_of_false (by simp [climb_root_succ]) (Nat.succ_ne_zero n)
  | push q c hc ih =>
    rw [depth_push]
    cases n with
    | zero =>
      refine iff_of_false (fun h => ?_) (Nat.succ_ne_zero _).symm
      exact push_ne_root (Option.some.inj h)
    | succ n => rw [climb_push_succ, ih, Nat.succ_inj]

/-- What is above a path is what steps to the parent lead to. -/
theorem above_iff_climb : q.Above p ↔ ∃ n, p.climb (n + 1) = some q := by
  induction p using pushInduction with
  | root =>
    refine iff_of_false (fun h => ?_) (by simp [climb_root_succ])
    exact h.2 (ext (List.prefix_nil.1 h.1))
  | push r c hc ih =>
    rw [above_push_iff, ih]
    simp only [climb_push_succ]
    constructor
    · rintro (rfl | ⟨n, hn⟩)
      · exact ⟨0, rfl⟩
      · exact ⟨n + 1, hn⟩
    · rintro ⟨n, hn⟩
      cases n with
      | zero => exact Or.inl (Option.some.inj hn).symm
      | succ n => exact Or.inr ⟨n, hn⟩

/-- What a path answers is determined by its components. -/
structure FollowsComponents (p : AssetPath) : Prop where
  depth : p.depth = p.components.length
  last : ∀ q c, p.components = q.components ++ [c] ↔ p.parent? = some q ∧ p.name = c
  depth_parent : ∀ n, p.parent?.map AssetPath.depth = some n ↔ p.depth = n + 1
  climb : ∀ n, p.climb n = some root ↔ n = p.depth
  above : ∀ q, q.isAncestorOf p = true ↔ ∃ n, p.climb (n + 1) = some q

theorem followsComponents (p : AssetPath) : p.FollowsComponents where
  depth := rfl
  last := by
    intro r d
    induction p using pushInduction with
    | root => exact iff_of_false (by simp [root]) fun h => nomatch h.1
    | push q c hc _ =>
      rw [parent?_push, name_push, components_push]
      constructor
      · intro h
        obtain ⟨hfront, hlast⟩ := List.append_inj' h rfl
        exact ⟨congrArg some (ext hfront), (List.cons.inj hlast).1⟩
      · rintro ⟨hparent, rfl⟩
        rw [Option.some.inj hparent]
  depth_parent := by
    intro n
    induction p using pushInduction with
    | root => exact iff_of_false nofun nofun
    | push q c hc _ => rw [parent?_push, depth_push, Option.map_some, Option.some_inj, Nat.succ_inj]
  climb := climb_eq_root_iff
  above := fun _ => isAncestorOf_iff.trans above_iff_climb

/-! ## Reading -/

/-- The written form without the slash at its end. -/
def bare (p : AssetPath) : String := joined "/" p.components

theorem bare_push : (q.push c hc).bare = q.text ++ c := (q.joinFile_eq c).symm

theorem text_push : (q.push c hc).text = q.text ++ c ++ "/" := by
  apply String.toList_inj.1
  simp [push, toList_text]

theorem text_eq_bare (hp : p ≠ root) : p.text = p.bare ++ "/" := by
  induction p using pushInduction with
  | root => exact absurd rfl hp
  | push q c hc _ => rw [text_push, bare_push]

theorem withoutSlash_append (s : String) : withoutSlash (s ++ "/") = s := by
  unfold withoutSlash
  rw [if_pos (by simp)]
  simp

theorem withoutSlash_of_ne (h : s.toList.getLast? ≠ some '/') : withoutSlash s = s := if_neg h

/-- A text has at most one slash more than it has without. -/
theorem eq_withoutSlash_or (s : String) : s = withoutSlash s ∨ s = withoutSlash s ++ "/" := by
  by_cases hlast : s.toList.getLast? = some '/'
  · right
    apply String.toList_inj.1
    unfold withoutSlash
    rw [if_pos hlast, String.toList_append, String.toList_ofList]
    exact (List.dropLast_append_getLast? _ hlast).symm
  · exact Or.inl (withoutSlash_of_ne hlast).symm

/-- `s` is written for the components `cs`: with a slash between neighbours, and behind the last
one or not. -/
structure Writes (cs : List String) (s : String) : Prop where
  valid : ∀ c ∈ cs, IsComponent c
  form : s = joined "/" cs ∨ cs ≠ [] ∧ s = joined "/" cs ++ "/"

/-! ### What is accepted -/

theorem head?_text_ne (p : AssetPath) : p.text.toList.head? ≠ some '/' := by
  rw [toList_text]
  cases hcs : p.components with
  | nil => simp
  | cons c cs =>
    have hmem : c ∈ p.components := hcs ▸ List.mem_cons_self
    obtain ⟨x, xs, hx⟩ := List.exists_cons_of_ne_nil (p.valid c hmem).toList_ne_nil
    have hne : '/' ≠ x := fun h => noSlash hmem (hx ▸ h ▸ List.mem_cons_self)
    simpa [hx] using Ne.symm hne

theorem backslash_not_mem_text (p : AssetPath) : '\\' ∉ p.text.toList := by
  rw [toList_text, List.mem_flatMap]
  rintro ⟨c, hc, hmem⟩
  rcases List.mem_append.1 hmem with hmem | hmem
  · exact ((p.valid c hc).2.2.2 _ hmem).2.1 rfl
  · exact absurd (List.mem_singleton.1 hmem) (by decide)

/-- A text that begins a written form is none of what is refused at once. -/
theorem ofString?_of_prefix (hne : s ≠ "") (hs : s.toList <+: p.text.toList)
    (hparts : fields '/' (withoutSlash s) = p.components) : ofString? s = .ok p := by
  have hhead : s.toList.head? ≠ some '/' := by
    obtain ⟨x, xs, hx⟩ : ∃ x xs, s.toList = x :: xs :=
      List.exists_cons_of_ne_nil fun h => hne (String.toList_inj.1 h)
    obtain ⟨rest, hrest⟩ := hs
    have htext := p.head?_text_ne
    rw [← hrest, hx] at htext
    rwa [hx]
  have hback : '\\' ∉ s.toList := fun hmem => p.backslash_not_mem_text (hs.subset hmem)
  have hvalid : ∀ c ∈ fields '/' (withoutSlash s), IsComponent c := hparts ▸ p.valid
  unfold ofString?
  rw [if_neg hne, if_neg hhead, if_neg hback]
  dsimp only
  rw [dif_pos hvalid]
  exact congrArg Except.ok (ext hparts)

theorem bare_ne_empty (hp : p ≠ root) : p.bare ≠ "" := by
  induction p using pushInduction with
  | root => exact absurd rfl hp
  | push q c hc _ =>
    intro h
    rw [bare_push] at h
    exact hc.1 (String.append_eq_empty_iff.1 h).2

theorem withoutSlash_bare (hp : p ≠ root) : withoutSlash p.bare = p.bare := by
  induction p using pushInduction with
  | root => exact absurd rfl hp
  | push q c hc _ =>
    refine withoutSlash_of_ne ?_
    rw [bare_push, String.toList_append, List.getLast?_append_of_ne_nil _ hc.toList_ne_nil]
    exact fun hlast => hc.noSlash (List.mem_of_getLast? hlast)

/-- The texts that are read are those that are written for components, and these are what is
read. -/
theorem ofString?_eq_ok_iff : ofString? s = .ok p ↔ Writes p.components s := by
  constructor
  · intro h
    unfold ofString? at h
    split at h
    · next hempty =>
      cases h
      exact ⟨root.valid, Or.inl hempty⟩
    split at h
    · cases h
    split at h
    · cases h
    dsimp only at h
    split at h
    · next hvalid =>
      cases h
      refine ⟨hvalid, ?_⟩
      rw [joined_fields]
      refine (eq_withoutSlash_or s).imp_right fun hs => ⟨?_, hs⟩
      exact Path.pieces_ne_nil ⟨withoutSlash s⟩
    · cases h
  · rintro ⟨-, hform⟩
    -- the root is written as the empty text only
    by_cases hp : p = root
    · subst hp
      rcases hform with rfl | ⟨hne, -⟩
      · rfl
      · exact absurd rfl hne
    have hparts : fields '/' p.bare = p.components :=
      fields_joined (fun hnil => hp (ext hnil)) fun _ => noSlash
    have htext : (p.bare ++ "/").toList = p.text.toList :=
      congrArg String.toList (text_eq_bare hp).symm
    rcases hform with hs | ⟨-, hs⟩
    · have hs : s = p.bare := hs
      subst hs
      refine ofString?_of_prefix (bare_ne_empty hp) ?_ ?_
      · rw [← htext, String.toList_append]
        exact List.prefix_append _ _
      · rw [withoutSlash_bare hp, hparts]
    · have hs : s = p.bare ++ "/" := hs
      subst hs
      refine ofString?_of_prefix (by simp) (htext ▸ List.prefix_rfl) ?_
      rw [withoutSlash_append, hparts]

theorem writes_text (p : AssetPath) : Writes p.components p.text := by
  refine ⟨p.valid, ?_⟩
  by_cases hp : p = root
  · subst hp
    exact Or.inl rfl
  · exact Or.inr ⟨fun hnil => hp (ext hnil), text_eq_bare hp⟩

/-! ## What the written form shows -/

/-- What stands before the last component of a written form. -/
def parentText? (s : String) : Option String :=
  if s = "" then none
  else match splitLast? '/' s.toList.dropLast with
    | some (front, _) => some (String.ofList (front ++ ['/']))
    | none => some ""

/-- The last component of a written form. -/
def nameText (s : String) : String :=
  match splitLast? '/' (withoutSlash s).toList with
  | some (_, last) => String.ofList last
  | none => withoutSlash s

/-- What a path answers can be read off its written form: depth by counting slashes, parent and
name by cutting at the last but one, and ancestry by comparing from the start. -/
structure Legible (p : AssetPath) : Prop where
  depth : p.text.toList.count '/' = p.depth
  parent : parentText? p.text = p.parent?.map text
  name : nameText p.text = p.name
  above : ∀ q : AssetPath, q.isAncestorOf p = true ↔
    q.text.utf8ByteSize < p.text.utf8ByteSize ∧ q.text.toList <+: p.text.toList

theorem withoutSlash_text (p : AssetPath) : withoutSlash p.text = p.bare := by
  by_cases hp : p = root
  · subst hp
    rfl
  · rw [text_eq_bare hp, withoutSlash_append]

theorem splitLast?_bare_push :
    splitLast? '/' (q.push c hc).bare.toList =
      if q = root then none else some (q.bare.toList, c.toList) := by
  rw [bare_push, String.toList_append]
  split
  · next hq =>
    subst hq
    exact splitLast?_of_not_mem hc.noSlash
  · next hq =>
    rw [text_eq_bare hq, String.toList_append, List.append_assoc]
    exact splitLast?_append _ hc.noSlash

theorem count_slash_text (p : AssetPath) : p.text.toList.count '/' = p.depth := by
  induction p using pushInduction with
  | root => rfl
  | push q c hc ih =>
    rw [text_push, depth_push, String.toList_append, String.toList_append, List.count_append,
      List.count_append, ih, List.count_eq_zero_of_not_mem hc.noSlash]
    rfl

theorem parentText?_text (p : AssetPath) : parentText? p.text = p.parent?.map text := by
  induction p using pushInduction with
  | root => rfl
  | push q c hc _ =>
    have hne : (q.push c hc).text ≠ "" := by
      rw [text_push]
      simp
    have hdrop : (q.push c hc).text.toList.dropLast = (q.push c hc).bare.toList := by
      rw [text_eq_bare push_ne_root]
      simp
    unfold parentText?
    rw [if_neg hne, hdrop, splitLast?_bare_push, parent?_push]
    by_cases hq : q = root
    · subst hq
      rfl
    · rw [if_neg hq, Option.map_some, text_eq_bare hq]
      simp

theorem nameText_text (p : AssetPath) : nameText p.text = p.name := by
  induction p using pushInduction with
  | root => rfl
  | push q c hc _ =>
    unfold nameText
    rw [withoutSlash_text, splitLast?_bare_push, name_push]
    by_cases hq : q = root
    · subst hq
      rw [if_pos rfl, bare_push]
      exact String.empty_append
    · rw [if_neg hq]
      exact String.ofList_toList

theorem above_iff_text :
    q.Above p ↔ q.text.utf8ByteSize < p.text.utf8ByteSize ∧ q.text.toList <+: p.text.toList := by
  constructor
  · intro h
    have hbegin := text_prefix_iff.2 h.1
    refine ⟨?_, hbegin⟩
    obtain ⟨rest, hrest⟩ := hbegin
    have htext : p.text = q.text ++ String.ofList rest := by
      apply String.toList_inj.1
      simp [hrest]
    have hmore : String.ofList rest ≠ "" := by
      intro hempty
      rw [hempty, String.append_empty] at htext
      exact h.2 (text_inj.1 htext.symm)
    rw [htext, String.utf8ByteSize_append]
    have hsize := mt String.utf8ByteSize_eq_zero_iff.1 hmore
    omega
  · rintro ⟨hsize, hbegin⟩
    refine ⟨text_prefix_iff.1 hbegin, ?_⟩
    rintro rfl
    exact lt_irrefl _ hsize

theorem legible (p : AssetPath) : p.Legible where
  depth := p.count_slash_text
  parent := p.parentText?_text
  name := p.nameText_text
  above := fun _ => isAncestorOf_iff.trans above_iff_text

/-- A text is read exactly if it is written for a list of components, and two texts are read as
one path exactly if it is the same list. The written form of a path reads as the path. What a path
answers is determined by its components, and can be read off its written form. -/
theorem written_forms_are_canonical :
    (∀ s, (∃ p, ofString? s = .ok p) ↔ ∃ cs, Writes cs s) ∧
      (∀ s p, ofString? s = .ok p ↔ Writes p.components s) ∧
      (∀ s t p q, ofString? s = .ok p → ofString? t = .ok q →
        (p = q ↔ ∃ cs, Writes cs s ∧ Writes cs t)) ∧
      (∀ p, ofString? p.text = .ok p) ∧
      ∀ p, FollowsComponents p ∧ Legible p := by
  refine ⟨?_, fun _ _ => ofString?_eq_ok_iff, ?_, ?_, fun p => ⟨p.followsComponents, p.legible⟩⟩
  · intro s
    constructor
    · rintro ⟨p, hp⟩
      exact ⟨p.components, ofString?_eq_ok_iff.1 hp⟩
    · rintro ⟨cs, hcs⟩
      exact ⟨⟨cs, hcs.valid⟩, ofString?_eq_ok_iff.2 hcs⟩
  · intro s t p q hp hq
    constructor
    · rintro rfl
      exact ⟨p.components, ofString?_eq_ok_iff.1 hp, ofString?_eq_ok_iff.1 hq⟩
    · rintro ⟨cs, hs, ht⟩
      have hp' : ofString? s = .ok ⟨cs, hs.valid⟩ := ofString?_eq_ok_iff.2 hs
      have hq' : ofString? t = .ok ⟨cs, ht.valid⟩ := ofString?_eq_ok_iff.2 ht
      rw [Except.ok.inj (hp.symm.trans hp'), Except.ok.inj (hq.symm.trans hq')]
  · intro p
    exact ofString?_eq_ok_iff.2 p.writes_text

/-- Components that are nearly what is refused. -/
def oddPath : AssetPath := ⟨["...", " .", "a.b", "~"], by decide⟩

theorem written_forms_are_canonical_odd :
    ofString? ".../ ./a.b/~" = .ok oddPath ∧ ofString? ".../ ./a.b/~/" = .ok oddPath ∧
      (∃ cs, Writes cs ".../ ./a.b/~" ∧ Writes cs ".../ ./a.b/~/") := by
  have hbare : ofString? ".../ ./a.b/~" = .ok oddPath := by decide +kernel
  have hslash : ofString? ".../ ./a.b/~/" = .ok oddPath := by decide +kernel
  exact ⟨hbare, hslash,
    (written_forms_are_canonical.2.2.1 _ _ oddPath oddPath hbare hslash).1 rfl⟩

end AssetPath

end AudioProject
