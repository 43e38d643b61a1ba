import AudioProject.Path

/-
  The pieces of a path that was put together. A plain name under a path is its last piece,
  whatever the path ends in (`pieces_join`); under a path that itself ends in a plain name it is
  one piece more, and can be taken off again (`parent?_join`, `fileName?_join`).
-/

namespace AudioProject

open Text

/-! ## Fields -/

namespace Text

theorem fieldsOf_append_sep (sep : Char) (xs ys : List Char) :
    fieldsOf sep (xs ++ sep :: ys) = fieldsOf sep xs ++ fieldsOf sep ys := by
  induction xs with
  | nil => simp [fieldsOf]
  | cons c xs ih =>
    rw [List.cons_append, fieldsOf, ih, fieldsOf]
    split
    · rfl
    · obtain ⟨f, fs, hf⟩ := List.exists_cons_of_ne_nil (fieldsOf_ne_nil sep xs)
      rw [hf]
      rfl

theorem fieldsOf_of_not_mem {sep : Char} {xs : List Char} (h : sep ∉ xs) :
    fieldsOf sep xs = [xs] := by
  induction xs with
  | nil => rfl
  | cons c xs ih =>
    rw [List.mem_cons, not_or] at h
    rw [fieldsOf, if_neg (Ne.symm h.1), ih h.2]

/-- Text without separators goes on with the last field. -/
theorem fieldsOf_append {sep : Char} {ys : List Char} (h : sep ∉ ys) (xs : List Char) :
    ∃ front last, fieldsOf sep xs = front ++ [last] ∧
      fieldsOf sep (xs ++ ys) = front ++ [last ++ ys] := by
  induction xs with
  | nil => exact ⟨[], [], rfl, by rw [List.nil_append, fieldsOf_of_not_mem h]; rfl⟩
  | cons c xs ih =>
    obtain ⟨front, last, hxs, happend⟩ := ih
    rw [List.cons_append, fieldsOf, fieldsOf, hxs, happend]
    split
    · exact ⟨[] :: front, last, rfl, rfl⟩
    · cases front with
      | nil => exact ⟨[], c :: last, rfl, rfl⟩
      | cons f fs => exact ⟨(c :: f) :: fs, last, rfl, rfl⟩

theorem not_mem_of_mem_fieldsOf {sep : Char} {xs f : List Char} (h : f ∈ fieldsOf sep xs) :
    sep ∉ f := by
  induction xs generalizing f with
  | nil =>
    rw [fieldsOf, List.mem_singleton] at h
    simp [h]
  | cons c xs ih =>
    rw [fieldsOf] at h
    obtain ⟨g, gs, hg⟩ := List.exists_cons_of_ne_nil (fieldsOf_ne_nil sep xs)
    rw [hg] at h ih
    split at h
    · rcases List.mem_cons.1 h with rfl | h
      · simp
      · exact ih h
    · next hc =>
      rcases List.mem_cons.1 h with rfl | h
      · rw [List.mem_cons, not_or]
        exact ⟨Ne.symm hc, ih List.mem_cons_self⟩
      · exact ih (List.mem_cons_of_mem _ h)

theorem eq_append_of_splitLast? {sep : Char} {xs a b : List Char}
    (h : splitLast? sep xs = some (a, b)) : xs = a ++ sep :: b := by
  induction xs generalizing a with
  | nil => cases h
  | cons c xs ih =>
    unfold splitLast? at h
    split at h
    · next a' b' hrest =>
      cases h
      rw [ih hrest]
      rfl
    · split at h
      · next hc =>
        cases h
        rw [hc]
        rfl
      · cases h

theorem splitLast?_of_not_mem {sep : Char} {xs : List Char} (h : sep ∉ xs) :
    splitLast? sep xs = none := by
  induction xs with
  | nil => rfl
  | cons c xs ih =>
    rw [List.mem_cons, not_or] at h
    rw [splitLast?, ih h.2]
    exact if_neg (Ne.symm h.1)

theorem splitLast?_append {sep : Char} (a : List Char) {b : List Char} (h : sep ∉ b) :
    splitLast? sep (a ++ sep :: b) = some (a, b) := by
  induction a with
  | nil =>
    rw [List.nil_append, splitLast?, splitLast?_of_not_mem h]
    exact if_pos rfl
  | cons c a ih => rw [List.cons_append, splitLast?, ih]

theorem joined_map_ofList (fs : List (List Char)) :
    joined "/" (fs.map String.ofList) = String.ofList (unfieldsOf '/' fs) := by
  induction fs with
  | nil => rfl
  | cons f fs ih =>
    cases fs with
    | nil => rfl
    | cons g gs =>
      have htail : joined "/" ((f :: g :: gs).map String.ofList) =
          String.ofList f ++ "/" ++ joined "/" ((g :: gs).map String.ofList) := rfl
      have hhead : unfieldsOf '/' (f :: g :: gs) = f ++ '/' :: unfieldsOf '/' (g :: gs) := rfl
      rw [htail, ih, hhead]
      apply String.toList_inj.1
      simp

end Text

namespace Path

/-! ## Plain names -/

/-- A name that leads one directory down. -/
structure IsName (s : String) : Prop where
  noSlash : '/' ∉ s.toList
  ne_empty : s ≠ ""
  ne_dot : s ≠ "."
  ne_dots : s ≠ ".."

theorem isName_iff {s : String} : IsName s ↔ '/' ∉ s.toList ∧ s ≠ "" ∧ s ≠ "." ∧ s ≠ ".." :=
  ⟨fun h => ⟨h.noSlash, h.ne_empty, h.ne_dot, h.ne_dots⟩, fun h => ⟨h.1, h.2.1, h.2.2.1, h.2.2.2⟩⟩

instance (s : String) : Decidable (IsName s) := decidable_of_iff _ isName_iff.symm

theorem IsName.not_silent {s : String} (h : IsName s) : isSilent s = false := by
  simp [isSilent, h.ne_empty, h.ne_dot]

theorem IsName.head_ne_slash {s : String} (h : IsName s) : s.toList.head? ≠ some '/' :=
  fun hhead => h.noSlash (List.mem_of_mem_head? hhead)

/-- The names that lead nowhere or up have less than three characters. -/
theorem isName_append {xs ys : String} (hxs : '/' ∉ xs.toList) (hys : '/' ∉ ys.toList)
    (hlen : 3 ≤ ys.length) : IsName (xs ++ ys) := by
  have hne : ∀ s : String, s.length < 3 → xs ++ ys ≠ s := by
    intro _ h hsame
    subst hsame
    rw [String.length_append] at h
    omega
  exact ⟨by simp [hxs, hys], hne _ (by decide), hne _ (by decide), hne _ (by decide)⟩

/-! ## Joining -/

theorem pieces_ne_nil (p : Path) : p.pieces ≠ [] := by
  simp [pieces, fields, fieldsOf_ne_nil]

theorem not_slash_of_mem_pieces {p : Path} {s : String} (h : s ∈ p.pieces) : '/' ∉ s.toList := by
  obtain ⟨f, hf, rfl⟩ := List.mem_map.1 h
  rw [String.toList_ofList]
  exact not_mem_of_mem_fieldsOf hf

theorem text_of_pieces (p : Path) : joined "/" p.pieces = p.text := by
  rw [pieces, fields, joined_map_ofList, unfieldsOf_fieldsOf, String.ofList_toList]

/-- The pieces of a text that goes on without a slash. -/
theorem pieces_append {s : String} (hs : '/' ∉ s.toList) (text : String) :
    ∃ front last, (⟨text⟩ : Path).pieces = front ++ [last] ∧
      (⟨text ++ s⟩ : Path).pieces = front ++ [last ++ s] := by
  obtain ⟨front, last, htext, happend⟩ := fieldsOf_append hs text.toList
  refine ⟨front.map String.ofList, String.ofList last, ?_, ?_⟩
  · simp [pieces, fields, htext]
  · rw [pieces, fields, String.toList_append, happend]
    simp [String.ofList_append]

theorem pieces_eq_name {s : String} (hs : '/' ∉ s.toList) : (⟨s⟩ : Path).pieces = [s] := by
  rw [pieces, fields, fieldsOf_of_not_mem hs]
  simp

theorem pieces_slash (text s : String) :
    (⟨text ++ "/" ++ s⟩ : Path).pieces = (⟨text⟩ : Path).pieces ++ (⟨s⟩ : Path).pieces := by
  have htext : (text ++ "/" ++ s).toList = text.toList ++ '/' :: s.toList := by simp
  rw [pieces, fields, htext, fieldsOf_append_sep, List.map_append]
  rfl

/-- A name under a path is the last piece. What comes before it is the path, without the empty
piece that a slash at its end leaves. -/
theorem pieces_join (p : Path) {s : String} (hs : '/' ∉ s.toList) :
    ∃ front, (p.join s).pieces = front ++ [s] ∧
      (p.pieces = front ∨ p.pieces = front ++ [""]) := by
  have hhead : s.toList.head? ≠ some '/' := fun h => hs (List.mem_of_mem_head? h)
  unfold join
  rw [if_neg hhead]
  by_cases hempty : p.text = ""
  · obtain ⟨text⟩ := p
    subst hempty
    refine ⟨[], ?_, Or.inr rfl⟩
    rw [if_pos (Or.inl rfl), String.empty_append, pieces_eq_name hs]
    rfl
  by_cases hslash : p.text.toList.getLast? = some '/'
  · rw [if_pos (Or.inr hslash)]
    obtain ⟨front, hfront⟩ := List.getLast?_eq_some_iff.1 hslash
    have htext : p.text = String.ofList front ++ "/" := by
      apply String.toList_inj.1
      simp [hfront]
    refine ⟨(⟨String.ofList front⟩ : Path).pieces, ?_, Or.inr ?_⟩
    · rw [htext, pieces_slash, pieces_eq_name hs]
    · have h := pieces_slash (String.ofList front) ""
      rw [String.append_empty, ← htext] at h
      exact h
  · rw [if_neg (by simp [hempty, hslash]), pieces_slash, pieces_eq_name hs]
    exact ⟨p.pieces, rfl, Or.inl rfl⟩

theorem isAbsolute_join (p : Path) {s : String} (hs : '/' ∉ s.toList) :
    (p.join s).isAbsolute = p.isAbsolute := by
  have hhead : s.toList.head? ≠ some '/' := fun h => hs (List.mem_of_mem_head? h)
  unfold isAbsolute join
  rw [if_neg hhead]
  obtain ⟨text⟩ := p
  cases htext : text.toList with
  | nil =>
    have hempty : text = "" := String.toList_inj.1 htext
    subst hempty
    simp [hhead]
  | cons c cs =>
    have hne : text ≠ "" := by
      intro hsame
      subst hsame
      cases htext
    split <;> simp [htext]

/-- The path that a list of names leads to from `p`. -/
def descend (p : Path) (names : List String) : Path := names.foldl join p

theorem descend_append (p : Path) (xs ys : List String) :
    p.descend (xs ++ ys) = (p.descend xs).descend ys := by
  unfold descend
  exact List.foldl_append

theorem descend_concat (p : Path) (names : List String) (name : String) :
    p.descend (names ++ [name]) = (p.descend names).join name := by
  rw [descend_append]
  rfl

/-- Behind a name with a slash a path goes on as behind the name alone. -/
theorem join_slash (p : Path) {name rest : String} (hname : IsName name)
    (hrest : rest.toList.head? ≠ some '/') :
    p.join (name ++ "/" ++ rest) = (p.join name).join rest := by
  obtain ⟨c, cs, hcs⟩ : ∃ c cs, name.toList = c :: cs :=
    List.exists_cons_of_ne_nil fun h => hname.ne_empty (String.toList_inj.1 h)
  have hhead : (name ++ "/" ++ rest).toList.head? = name.toList.head? := by simp [hcs]
  -- what stands before the rest ends with the name, so it ends in no slash
  have hlast : ∀ text : String, (text ++ name).toList.getLast? ≠ some '/' := by
    intro text h
    rw [String.toList_append, List.getLast?_append, hcs, Option.or_eq_some_iff] at h
    rcases h with h | ⟨hnone, -⟩
    · exact hname.noSlash (hcs ▸ List.mem_of_getLast? h)
    · simp at hnone
  have hne : ∀ text : String, text ++ name ≠ "" := by
    intro text h
    have hnil := congrArg String.toList h
    rw [String.toList_append, hcs] at hnil
    simp at hnil
  have hjoin : ∀ text : String,
      (⟨text ++ name⟩ : Path).join rest = ⟨text ++ name ++ "/" ++ rest⟩ := by
    intro text
    unfold join
    rw [if_neg hrest, if_neg (not_or.2 ⟨hne text, hlast text⟩)]
  by_cases hp : p.text = "" ∨ p.text.toList.getLast? = some '/'
  · have hname' : p.join name = ⟨p.text ++ name⟩ := by
      unfold join
      rw [if_neg hname.head_ne_slash, if_pos hp]
    have hwhole : p.join (name ++ "/" ++ rest) = ⟨p.text ++ (name ++ "/" ++ rest)⟩ := by
      unfold join
      rw [hhead, if_neg hname.head_ne_slash, if_pos hp]
    rw [hwhole, hname', hjoin]
    simp only [String.append_assoc]
  · have hname' : p.join name = ⟨p.text ++ "/" ++ name⟩ := by
      unfold join
      rw [if_neg hname.head_ne_slash, if_neg hp]
    have hwhole : p.join (name ++ "/" ++ rest) = ⟨p.text ++ "/" ++ (name ++ "/" ++ rest)⟩ := by
      unfold join
      rw [hhead, if_neg hname.head_ne_slash, if_neg hp]
    rw [hwhole, hname', hjoin]
    simp only [String.append_assoc]

theorem join_joined (p : Path) {names : List String} (hnames : ∀ n ∈ names, IsName n)
    (hne : names ≠ []) : p.join (joined "/" names) = p.descend names := by
  induction names generalizing p with
  | nil => exact absurd rfl hne
  | cons name names ih =>
    cases names with
    | nil => rfl
    | cons name' names' =>
      have hname := hnames name List.mem_cons_self
      have hrest : ∀ n ∈ name' :: names', IsName n :=
        fun n hn => hnames n (List.mem_cons_of_mem _ hn)
      have hhead : (joined "/" (name' :: names')).toList.head? ≠ some '/' := by
        have hname' := hrest name' List.mem_cons_self
        obtain ⟨c, cs, hcs⟩ : ∃ c cs, name'.toList = c :: cs :=
          List.exists_cons_of_ne_nil fun h => hname'.ne_empty (String.toList_inj.1 h)
        have hc := hname'.head_ne_slash
        cases names' with
        | nil => exact hc
        | cons name'' names'' =>
          show (name' ++ "/" ++ joined "/" (name'' :: names'')).toList.head? ≠ some '/'
          rw [hcs] at hc
          simp only [String.toList_append, hcs, List.cons_append, List.head?_cons]
          exact hc
      show p.join (name ++ "/" ++ joined "/" (name' :: names')) = _
      rw [join_slash p hname hhead, ih (p.join name) hrest (List.cons_ne_nil _ _)]
      rfl

/-! ## The last name -/

theorem trimSilent_concat (xs : List String) {s : String} (hs : isSilent s = false) :
    trimSilent (xs ++ [s]) = xs ++ [s] := by
  unfold trimSilent
  rw [List.reverse_append, List.reverse_singleton, List.singleton_append, List.dropWhile_cons, hs]
  simp

/-- The last name is no part of how a path begins. -/
theorem split_of_pieces {p : Path} {front : List String} {name : String}
    (hp : p.pieces = front ++ [name]) (hname : IsName name) :
    ∃ start body, p.split = (start, body ++ [name]) ∧ front = start ++ body ∧
      (start = [] ∨ start = [""] ∨ start = ["."]) := by
  unfold split
  rw [hp]
  cases front with
  | nil =>
    refine ⟨[], [], ?_, rfl, Or.inl rfl⟩
    rw [List.nil_append]
    split
    · next h => exact absurd (List.cons.inj h).1 hname.ne_empty
    · next h => exact absurd (List.cons.inj h).1 hname.ne_dot
    · rfl
  | cons piece front =>
    rw [List.cons_append]
    split
    · next h =>
      obtain ⟨rfl, rfl⟩ := List.cons.inj h
      exact ⟨[""], front, rfl, rfl, Or.inr (Or.inl rfl)⟩
    · next h =>
      obtain ⟨rfl, rfl⟩ := List.cons.inj h
      exact ⟨["."], front, rfl, rfl, Or.inr (Or.inr rfl)⟩
    · exact ⟨[], piece :: front, rfl, rfl, Or.inl rfl⟩

theorem fileName?_join (p : Path) {name : String} (hname : IsName name) :
    (p.join name).fileName? = some name := by
  obtain ⟨front, hpieces, -⟩ := p.pieces_join hname.noSlash
  obtain ⟨start, body, hsplit, -, -⟩ := split_of_pieces hpieces hname
  unfold fileName?
  rw [hsplit, trimSilent_concat body hname.not_silent, List.getLast?_concat]
  exact if_neg hname.ne_dots

/-- A name ends in `.xml` exactly if that is its extension, and a dot does not make a name. -/
theorem extension?_join (p : Path) {name : String} (hname : IsName name) :
    (p.join name).extension? = some "xml" ↔ ∃ stem, stem ≠ "" ∧ name = stem ++ ".xml" := by
  unfold extension?
  rw [fileName?_join p hname]
  dsimp only
  constructor
  · intro h
    split at h
    · next stem ending hsplit =>
      split at h
      · cases h
      next hstem =>
      have hending : String.ofList ending = "xml" := Option.some.inj h
      have hchars : ending = ['x', 'm', 'l'] := by
        rw [← String.toList_ofList (l := ending), hending]
        rfl
      refine ⟨String.ofList stem, fun hempty => hstem ?_, String.toList_inj.1 ?_⟩
      · rw [← String.toList_ofList (l := stem), hempty]
        rfl
      · rw [eq_append_of_splitLast? hsplit, hchars]
        simp
    · cases h
  · rintro ⟨stem, hstem, rfl⟩
    have hchars : (stem ++ ".xml").toList = stem.toList ++ '.' :: ['x', 'm', 'l'] := by simp
    rw [hchars, splitLast?_append _ (by decide)]
    exact if_neg fun hnil => hstem (String.toList_inj.1 hnil)

/-- A path that ends in a plain name is what a name under it is under. -/
theorem parent?_join {p : Path} {front : List String} {last name : String}
    (hp : p.pieces = front ++ [last]) (hlast : IsName last) (hname : IsName name) :
    (p.join name).parent? = some p := by
  have hpieces : (p.join name).pieces = front ++ [last] ++ [name] := by
    obtain ⟨front', hjoin, hfront⟩ := p.pieces_join hname.noSlash
    rw [hjoin]
    rcases hfront with hfront | hfront
    · rw [← hfront, hp]
    · rw [hp] at hfront
      have hempty := (List.append_inj' hfront rfl).2
      exact absurd (List.cons.inj hempty).1 hlast.ne_empty
  obtain ⟨start, body, hsplit, hbody, hstart⟩ := split_of_pieces hpieces hname
  -- the name before the last is no part of the beginning either
  obtain ⟨body, rfl⟩ : ∃ body', body = body' ++ [last] := by
    rcases List.eq_nil_or_concat body with rfl | ⟨body', last', rfl⟩
    · rw [List.append_nil] at hbody
      rcases hstart with rfl | rfl | rfl
      · simp at hbody
      · have hbody' : _ ++ [last] = [] ++ [""] := hbody
        exact absurd (List.cons.inj (List.append_inj' hbody' rfl).2).1 hlast.ne_empty
      · have hbody' : _ ++ [last] = [] ++ ["."] := hbody
        exact absurd (List.cons.inj (List.append_inj' hbody' rfl).2).1 hlast.ne_dot
    · rw [List.concat_eq_append, ← List.append_assoc] at hbody
      have hlast' := (List.append_inj' hbody rfl).2
      rw [(List.cons.inj hlast').1]
      exact ⟨body', List.concat_eq_append⟩
  unfold parent?
  rw [hsplit]
  dsimp only
  rw [trimSilent_concat _ hname.not_silent]
  have htext : joined "/" (start ++ (body ++ [last])) = p.text := by
    rw [← hbody, ← hp, text_of_pieces]
  have hrest : trimSilent (body ++ [last] ++ [name]).dropLast = body ++ [last] := by
    rw [List.dropLast_concat, trimSilent_concat body hlast.not_silent]
  generalize hlist : body ++ [last] ++ [name] = list at hrest
  cases list with
  | nil => simp at hlist
  | cons x xs =>
    dsimp only
    rw [hrest]
    split
    · next h => simp at h
    · rw [htext]

theorem mem_pieces_of_mem_split {p : Path} {s : String} (h : s ∈ p.split.2) : s ∈ p.pieces := by
  unfold split at h
  split at h
  · next hp =>
    rw [hp]
    exact List.mem_cons_of_mem _ h
  · next hp =>
    rw [hp]
    exact List.mem_cons_of_mem _ h
  · exact h

theorem not_silent_of_trimSilent {xs : List String} {s : String}
    (h : (trimSilent xs).getLast? = some s) : isSilent s = false := by
  unfold trimSilent at h
  rw [List.getLast?_reverse] at h
  have hhead := List.head?_dropWhile_not isSilent xs.reverse
  rw [h] at hhead
  exact hhead

/-- The last name of a path is a plain one. -/
theorem isName_of_fileName? {p : Path} {s : String} (h : p.fileName? = some s) : IsName s := by
  unfold fileName? at h
  split at h
  · next name hlast =>
    by_cases hdots : name = ".."
    · rw [if_pos hdots] at h
      cases h
    rw [if_neg hdots] at h
    obtain rfl := Option.some.inj h
    have hsilent := not_silent_of_trimSilent hlast
    have hmem : name ∈ trimSilent p.split.2 := List.mem_of_getLast? hlast
    have hsplit : name ∈ p.split.2 :=
      List.mem_reverse.1 (List.dropWhile_subset _ (List.mem_reverse.1 hmem))
    simp only [isSilent, Bool.or_eq_false_iff, decide_eq_false_iff_not] at hsilent
    exact ⟨not_slash_of_mem_pieces (mem_pieces_of_mem_split hsplit), hsilent.1, hsilent.2, hdots⟩
  · cases h

end Path

end AudioProject
