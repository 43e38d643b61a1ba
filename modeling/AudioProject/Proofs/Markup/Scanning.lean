import AudioProject.Markup.Event

/-
  How written markup is cut into lexemes and attributes. Escaped text has neither angles nor
  quotes, so character data ends at the next `<`, a tag at the next `>`, and an attribute value
  at the next quote.
  `lexFrom_data`, `lexFrom_tag`, `lexFrom_close`: one lexeme is read off the front of the text.
  `ofContent_written`, `value?_written`: the attributes of a written tag are those it was given.
-/

namespace AudioProject.Markup

/-! ## Escaped text -/

/-- Escaped text has none of the characters that markup is made of. -/
theorem mem_escape {cs : List Char} {c : Char} (h : c ∈ escape cs) :
    c ≠ '<' ∧ c ≠ '>' ∧ c ≠ '"' ∧ c ≠ '\'' := by
  obtain ⟨d, -, hd⟩ := List.mem_flatMap.1 h
  unfold escapeChar at hd
  split at hd
  · exact (by simp : ∀ x ∈ ['&', 'l', 't', ';'], x ≠ '<' ∧ x ≠ '>' ∧ x ≠ '"' ∧ x ≠ '\'') c hd
  split at hd
  · exact (by simp : ∀ x ∈ ['&', 'g', 't', ';'], x ≠ '<' ∧ x ≠ '>' ∧ x ≠ '"' ∧ x ≠ '\'') c hd
  split at hd
  · exact (by simp :
      ∀ x ∈ ['&', 'a', 'm', 'p', ';'], x ≠ '<' ∧ x ≠ '>' ∧ x ≠ '"' ∧ x ≠ '\'') c hd
  split at hd
  · exact (by simp :
      ∀ x ∈ ['&', 'a', 'p', 'o', 's', ';'], x ≠ '<' ∧ x ≠ '>' ∧ x ≠ '"' ∧ x ≠ '\'') c hd
  split at hd
  · exact (by simp :
      ∀ x ∈ ['&', 'q', 'u', 'o', 't', ';'], x ≠ '<' ∧ x ≠ '>' ∧ x ≠ '"' ∧ x ≠ '\'') c hd
  · next hlt hgt _ hapos hquot =>
    rw [List.mem_singleton.1 hd]
    exact ⟨hlt, hgt, hquot, hapos⟩

theorem not_mem_escape {c : Char} (hc : c = '<' ∨ c = '>' ∨ c = '"' ∨ c = '\'') (cs : List Char) :
    c ∉ escape cs := by
  intro h
  obtain ⟨h1, h2, h3, h4⟩ := mem_escape h
  rcases hc with hc | hc | hc | hc
  · exact h1 hc
  · exact h2 hc
  · exact h3 hc
  · exact h4 hc

/-! ## Lexemes -/

theorem lexFrom_angle (start position : Nat) (cs : List Char) :
    lexFrom (.data []) start position ('<' :: cs) = lexFrom .angle start (position + 1) cs := rfl

theorem lexFrom_data_append (raw : List Char) (hraw : '<' ∉ raw) (acc : List Char)
    (hacc : acc ≠ []) (start position : Nat) (cs : List Char) :
    lexFrom (.data acc) start position (raw ++ cs) =
      lexFrom (.data (raw.reverse ++ acc)) start (position + byteLength raw) cs := by
  induction raw generalizing acc position with
  | nil => rfl
  | cons c raw ih =>
    have hc : c ≠ '<' := fun h => hraw (h ▸ List.mem_cons_self)
    have hrest : '<' ∉ raw := fun h => hraw (List.mem_cons_of_mem _ h)
    have hmove : (Mode.data acc).move c = .stay (.data (c :: acc)) := by
      obtain ⟨a, as, rfl⟩ := List.exists_cons_of_ne_nil hacc
      simp [Mode.move, hc]
    rw [List.cons_append, lexFrom, hmove]
    dsimp only
    rw [ih hrest (c :: acc) (by simp)]
    simp [byteLength, Nat.add_assoc]

/-- Character data reaches up to the next tag; without characters it leaves no lexeme. -/
theorem lexFrom_data (raw : List Char) (hraw : '<' ∉ raw) (position : Nat) (cs : List Char) :
    lexFrom (.data []) position position (raw ++ '<' :: cs) =
      (if raw = [] then [] else [(position, .text raw)]) ++
        lexFrom (.data []) (position + byteLength raw) (position + byteLength raw) ('<' :: cs) := by
  cases raw with
  | nil => rfl
  | cons c raw =>
    have hc : c ≠ '<' := fun h => hraw (h ▸ List.mem_cons_self)
    have hrest : '<' ∉ raw := fun h => hraw (List.mem_cons_of_mem _ h)
    have hmove : (Mode.data []).move c = .stay (.data [c]) := by simp [Mode.move, hc]
    rw [List.cons_append, lexFrom, hmove]
    dsimp only
    rw [lexFrom_data_append raw hrest [c] (by simp), lexFrom_angle, lexFrom]
    have hend : (Mode.data (raw.reverse ++ [c])).move '<' = .endText (c :: raw) := by
      obtain ⟨a, as, ha⟩ := List.exists_cons_of_ne_nil (l := raw.reverse ++ [c]) (by simp)
      rw [ha]
      simp [Mode.move, ← ha]
    rw [hend]
    simp [byteLength, Nat.add_assoc, Char.utf8Size]

/-- The quote that is open behind `content`. -/
def quoteBehind (content : List Char) : Option Char := content.foldl Mode.quoteAfter none

theorem lexFrom_tag_append (content : List Char) (hend : '>' ∉ content) (quote : Option Char)
    (acc : List Char) (start position : Nat) (cs : List Char) :
    lexFrom (.tag quote acc) start position (content ++ cs) =
      lexFrom (.tag (content.foldl Mode.quoteAfter quote) (content.reverse ++ acc)) start
        (position + byteLength content) cs := by
  induction content generalizing quote acc position with
  | nil => rfl
  | cons c content ih =>
    have hc : c ≠ '>' := fun h => hend (h ▸ List.mem_cons_self)
    have hrest : '>' ∉ content := fun h => hend (List.mem_cons_of_mem _ h)
    have hmove :
        (Mode.tag quote acc).move c = .stay (.tag (Mode.quoteAfter quote c) (c :: acc)) := by
      simp [Mode.move, hc]
    rw [List.cons_append, lexFrom, hmove]
    dsimp only
    rw [ih hrest]
    simp [byteLength, Nat.add_assoc]

/-- What can stand between `<` and `>`: no other construct begins like it, and it ends at the
first `>`. -/
structure IsTagContent (content : List Char) : Prop where
  noEnd : '>' ∉ content
  closed : quoteBehind content = none
  first : ∃ c cs, content = c :: cs ∧ c ≠ '!' ∧ c ≠ '/' ∧ c ≠ '?'

theorem lexFrom_tag {content : List Char} (h : IsTagContent content) (position : Nat)
    (cs : List Char) :
    lexFrom (.data []) position position ('<' :: content ++ '>' :: cs) =
      (position, .tag content) ::
        lexFrom (.data []) (position + byteLength ('<' :: content ++ ['>']))
          (position + byteLength ('<' :: content ++ ['>'])) cs := by
  obtain ⟨c, rest, rfl, hbang, hslash, hquery⟩ := h.first
  have hc : c ≠ '>' := fun h' => h.noEnd (h' ▸ List.mem_cons_self)
  have hrest : '>' ∉ rest := fun h' => h.noEnd (List.mem_cons_of_mem _ h')
  have hmove : Mode.angle.move c = .stay (.tag (Mode.quoteAfter none c) [c]) := by
    simp [Mode.move, hbang, hslash, hquery, hc]
  have hquote : rest.foldl Mode.quoteAfter (Mode.quoteAfter none c) = none := h.closed
  rw [List.cons_append, lexFrom_angle, List.cons_append, lexFrom, hmove]
  dsimp only
  rw [lexFrom_tag_append rest hrest, hquote, lexFrom]
  have hend : (Mode.tag none (rest.reverse ++ [c])).move '>' = .endWith (.tag (c :: rest)) := by
    simp [Mode.move]
  rw [hend]
  simp [byteLength, byteLength_append, Nat.add_assoc, Char.utf8Size]

theorem lexFrom_close_append (name : List Char) (hend : '>' ∉ name) (acc : List Char)
    (start position : Nat) (cs : List Char) :
    lexFrom (.close acc) start position (name ++ cs) =
      lexFrom (.close (name.reverse ++ acc)) start (position + byteLength name) cs := by
  induction name generalizing acc position with
  | nil => rfl
  | cons c name ih =>
    have hc : c ≠ '>' := fun h => hend (h ▸ List.mem_cons_self)
    have hrest : '>' ∉ name := fun h => hend (List.mem_cons_of_mem _ h)
    have hmove : (Mode.close acc).move c = .stay (.close (c :: acc)) := by simp [Mode.move, hc]
    rw [List.cons_append, lexFrom, hmove]
    dsimp only
    rw [ih hrest]
    simp [byteLength, Nat.add_assoc]

theorem lexFrom_close {name : List Char} (hend : '>' ∉ name) (position : Nat) (cs : List Char) :
    lexFrom (.data []) position position ('<' :: '/' :: name ++ '>' :: cs) =
      (position, .close name) ::
        lexFrom (.data []) (position + byteLength ('<' :: '/' :: name ++ ['>']))
          (position + byteLength ('<' :: '/' :: name ++ ['>'])) cs := by
  have hslash : Mode.angle.move '/' = .stay (.close []) := rfl
  rw [List.cons_append, lexFrom_angle, List.cons_append, lexFrom, hslash]
  dsimp only
  rw [lexFrom_close_append name hend, lexFrom]
  have hmove : (Mode.close (name.reverse ++ [])).move '>' = .endWith (.close name) := by
    simp [Mode.move]
  have hlen : byteLength ('<' :: '/' :: name ++ ['>']) = 1 + 1 + byteLength name + 1 := by
    simp [byteLength, byteLength_append, Char.utf8Size]
    omega
  rw [hmove, hlen]
  simp [Nat.add_assoc, Char.utf8Size]

/-! ## Words -/

/-- Names of elements and keys of attributes are made of letters. -/
def IsWord (cs : List Char) : Prop := cs ≠ [] ∧ ∀ c ∈ cs, c.isAlpha = true

instance (cs : List Char) : Decidable (IsWord cs) :=
  @instDecidableAnd _ _ inferInstance (List.decidableBAll _ cs)

theorem IsWord.not_mem {cs : List Char} (h : IsWord cs) {c : Char} (hc : c.isAlpha = false) :
    c ∉ cs := by
  intro hmem
  rw [h.2 c hmem] at hc
  cases hc

theorem IsWord.not_blank {cs : List Char} (h : IsWord cs) :
    ∀ c ∈ cs, isMarkupBlank c = false := by
  intro c hc
  have halpha := h.2 c hc
  have hne : ∀ d, d.isAlpha = false → c ≠ d := by
    intro d hd hsame
    subst hsame
    rw [halpha] at hd
    cases hd
  simp [isMarkupBlank, hne ' ' rfl, hne '\t' rfl, hne '\r' rfl, hne '\n' rfl]

theorem closingName_word {name : List Char} (h : IsWord name) : closingName name = name := by
  have hdrop : name.reverse.dropWhile isMarkupBlank = name.reverse := by
    rcases hrev : name.reverse with _ | ⟨c, cs⟩
    · rfl
    · have hmem : c ∈ name := List.mem_reverse.1 (hrev ▸ List.mem_cons_self)
      rw [List.dropWhile_cons_of_neg (by simp [h.not_blank c hmem])]
  unfold closingName
  rw [hdrop, List.reverse_reverse]
  dsimp only
  rw [if_neg h.1]

/-! ## Attributes -/

/-- An attribute as it is written, with a blank in front. -/
def attributeChars (key value : List Char) : List Char :=
  ' ' :: key ++ '=' :: '"' :: escape value ++ ['"']

/-- Attributes as they are written. -/
def attributesChars (as : List (List Char × List Char)) : List Char :=
  as.flatMap fun a => attributeChars a.1 a.2

namespace Attributes

theorem readFrom_key (key : List Char) (hkey : ∀ c ∈ key, c ≠ '=' ∧ isMarkupBlank c = false)
    (start : Nat) (acc : List Char) (seen : List (List Char × Nat)) (position : Nat)
    (cs : List Char) :
    readFrom (.key start acc) seen position (key ++ cs) =
      readFrom (.key start (key.reverse ++ acc)) seen (position + byteLength key) cs := by
  induction key generalizing acc position with
  | nil => rfl
  | cons c key ih =>
    obtain ⟨heq, hblank⟩ := hkey c List.mem_cons_self
    rw [List.cons_append, readFrom]
    rw [if_neg heq, hblank, if_neg (by simp), ih (fun d hd => hkey d (List.mem_cons_of_mem _ hd))]
    simp [byteLength, Nat.add_assoc]

theorem readFrom_value (raw : List Char) (q : Char) (hraw : q ∉ raw) (key acc : List Char)
    (seen : List (List Char × Nat)) (position : Nat) (cs : List Char) :
    readFrom (.value key q acc) seen position (raw ++ cs) =
      readFrom (.value key q (raw.reverse ++ acc)) seen (position + byteLength raw) cs := by
  induction raw generalizing acc position with
  | nil => rfl
  | cons c raw ih =>
    have hc : c ≠ q := fun h => hraw (h ▸ List.mem_cons_self)
    rw [List.cons_append, readFrom]
    rw [if_neg hc, ih (fun h => hraw (List.mem_cons_of_mem _ h))]
    simp [byteLength, Nat.add_assoc]

theorem readFrom_key_equals {acc : List Char} {seen : List (List Char × Nat)}
    (hseen : seen.find? (·.1 = acc.reverse) = none) (start position : Nat) (cs : List Char) :
    readFrom (.key start acc) seen position ('=' :: cs) =
      readFrom (.equals acc.reverse) (seen ++ [(acc.reverse, start)]) (position + 1) cs := by
  rw [readFrom, if_pos rfl]
  dsimp only
  rw [hseen]
  rfl

theorem readFrom_equals_value {value : List Char} (hvalue : '"' ∉ value) (key : List Char)
    (seen : List (List Char × Nat)) (position : Nat) (cs : List Char) :
    readFrom (.equals key) seen position ('"' :: value ++ '"' :: cs) =
      cons key value (readFrom .between seen (position + byteLength ('"' :: value ++ ['"'])) cs) := by
  have hblank : isMarkupBlank '"' = false := rfl
  rw [List.cons_append, readFrom, hblank, if_neg (by simp), if_pos (Or.inl rfl),
    readFrom_value _ _ hvalue, readFrom, if_pos rfl]
  simp [byteLength, byteLength_append, Nat.add_assoc]

/-- A written attribute is read, if its key has not come before. -/
theorem readFrom_attribute {key : List Char} (hkey : IsWord key) (value : List Char)
    {seen : List (List Char × Nat)} (hseen : seen.find? (·.1 = key) = none) (position : Nat)
    (cs : List Char) :
    readFrom .between seen position (attributeChars key value ++ cs) =
      cons key (escape value) (readFrom .between (seen ++ [(key, position + 1)])
        (position + byteLength (attributeChars key value)) cs) := by
  obtain ⟨k, ks, rfl⟩ := List.exists_cons_of_ne_nil hkey.1
  have hblank : isMarkupBlank k = false := hkey.not_blank k List.mem_cons_self
  have hks : ∀ c ∈ ks, c ≠ '=' ∧ isMarkupBlank c = false := by
    intro c hc
    have hmem := List.mem_cons_of_mem k hc
    exact ⟨fun h => hkey.not_mem (c := '=') rfl (h ▸ hmem), hkey.not_blank c hmem⟩
  have hsp : isMarkupBlank ' ' = true := rfl
  have hrev : (ks.reverse ++ [k]).reverse = k :: ks := by simp
  have hlen : byteLength (attributeChars (k :: ks) value) =
      1 + k.utf8Size + byteLength ks + 1 + byteLength ('"' :: escape value ++ ['"']) := by
    simp [attributeChars, byteLength, byteLength_append, Char.utf8Size]
    omega
  rw [hlen]
  simp only [attributeChars, List.cons_append, List.append_assoc, List.nil_append]
  rw [readFrom, hsp, if_pos rfl, readFrom, hblank, if_neg (by simp), readFrom_key ks hks,
    readFrom_key_equals (by rw [hrev]; exact hseen), hrev, ← List.cons_append,
    readFrom_equals_value (not_mem_escape (by simp) value)]
  simp [Nat.add_assoc, Char.utf8Size]

/-- Written attributes are read one after the other, if no key comes twice. -/
theorem readFrom_attributes (as : List (List Char × List Char)) (hword : ∀ a ∈ as, IsWord a.1)
    (hnodup : (as.map Prod.fst).Nodup) (seen : List (List Char × Nat))
    (hseen : ∀ a ∈ as, seen.find? (·.1 = a.1) = none) (position : Nat) :
    readFrom .between seen position (attributesChars as) =
      ⟨as.map fun a => (a.1, escape a.2), none⟩ := by
  induction as generalizing seen position with
  | nil => rfl
  | cons a as ih =>
    rw [List.map_cons, List.nodup_cons] at hnodup
    have hrest : ∀ b ∈ as, (seen ++ [(a.1, position + 1)]).find? (·.1 = b.1) = none := by
      intro b hb
      have hne : a.1 ≠ b.1 := fun h => hnodup.1 (h ▸ List.mem_map_of_mem hb)
      have hold := hseen b (List.mem_cons_of_mem _ hb)
      rw [List.find?_append, hold]
      simp [hne]
    rw [show attributesChars (a :: as) = attributeChars a.1 a.2 ++ attributesChars as from rfl,
      readFrom_attribute (hword a List.mem_cons_self) a.2 (hseen a List.mem_cons_self),
      ih (fun b hb => hword b (List.mem_cons_of_mem _ hb)) hnodup.2 _ hrest]
    rfl

end Attributes

/-! ## Tags -/

theorem takeWhile_name (name rest : List Char) (hname : ∀ c ∈ name, isMarkupBlank c = false)
    (hrest : rest = [] ∨ ∃ cs, rest = ' ' :: cs) :
    (name ++ rest).takeWhile (fun c => !isMarkupBlank c) = name := by
  have hstop : rest.takeWhile (fun c => !isMarkupBlank c) = [] := by
    rcases hrest with rfl | ⟨cs, rfl⟩
    · rfl
    · rfl
  rw [List.takeWhile_append_of_pos (by simpa using hname), hstop, List.append_nil]

/-- The tag of an element with attributes. -/
def writtenTag (name : List Char) (as : List (List Char × List Char)) : Tag :=
  ⟨name, ⟨as.map fun a => (a.1, escape a.2), none⟩⟩

theorem attributesChars_head (as : List (List Char × List Char)) :
    attributesChars as = [] ∨ ∃ cs, attributesChars as = ' ' :: cs := by
  cases as with
  | nil => exact Or.inl rfl
  | cons a as => exact Or.inr ⟨_, rfl⟩

theorem ofContent_written {name : List Char} (hname : IsWord name)
    {as : List (List Char × List Char)} (hword : ∀ a ∈ as, IsWord a.1)
    (hnodup : (as.map Prod.fst).Nodup) :
    Tag.ofContent (name ++ attributesChars as) = writtenTag name as := by
  have hdrop : (name ++ attributesChars as).drop name.length = attributesChars as := by simp
  unfold Tag.ofContent writtenTag
  rw [takeWhile_name name _ hname.not_blank (attributesChars_head as)]
  dsimp only
  rw [hdrop, Attributes.readFrom_attributes as hword hnodup [] (by simp)]

/-- An attribute that was written is found, with its value as it was before escaping. -/
theorem value?_written (name : List Char) {as : List (List Char × List Char)}
    (hnodup : (as.map Prod.fst).Nodup) {key value : List Char} (hmem : (key, value) ∈ as) :
    (writtenTag name as).value? key = .ok (some value) := by
  have hfind : (as.map fun a => (a.1, escape a.2)).find? (·.1 = key) =
      some (key, escape value) := by
    induction as with
    | nil => cases hmem
    | cons a as ih =>
      rw [List.map_cons, List.nodup_cons] at hnodup
      rw [List.map_cons, List.find?_cons]
      rcases List.mem_cons.1 hmem with rfl | hmem
      · simp
      · have hne : a.1 ≠ key := by
          intro hsame
          subst hsame
          exact hnodup.1 (List.mem_map.2 ⟨_, hmem, rfl⟩)
        simpa [hne] using ih hnodup.2 hmem
  simp [Tag.value?, writtenTag, hfind, unescape_escape]

theorem quoteAfter_unquoted (cs : List Char) (hd : '"' ∉ cs) (hs : '\'' ∉ cs) :
    cs.foldl Mode.quoteAfter none = none := by
  induction cs with
  | nil => rfl
  | cons c cs ih =>
    have hc : c ≠ '"' ∧ c ≠ '\'' :=
      ⟨fun h => hd (h ▸ List.mem_cons_self), fun h => hs (h ▸ List.mem_cons_self)⟩
    rw [List.foldl_cons, show Mode.quoteAfter none c = none by simp [Mode.quoteAfter, hc]]
    exact ih (fun h => hd (List.mem_cons_of_mem _ h)) (fun h => hs (List.mem_cons_of_mem _ h))

theorem quoteAfter_inside (cs : List Char) (q : Char) (h : q ∉ cs) :
    cs.foldl Mode.quoteAfter (some q) = some q := by
  induction cs with
  | nil => rfl
  | cons c cs ih =>
    have hc : c ≠ q := fun h' => h (h' ▸ List.mem_cons_self)
    rw [List.foldl_cons, show Mode.quoteAfter (some q) c = some q by simp [Mode.quoteAfter, hc]]
    exact ih fun h' => h (List.mem_cons_of_mem _ h')

theorem quoteAfter_attributes (as : List (List Char × List Char)) (hword : ∀ a ∈ as, IsWord a.1) :
    (attributesChars as).foldl Mode.quoteAfter none = none := by
  induction as with
  | nil => rfl
  | cons a as ih =>
    have hkey := hword a List.mem_cons_self
    have hquote : '"' ∉ escape a.2 := not_mem_escape (by simp) a.2
    rw [show attributesChars (a :: as) = attributeChars a.1 a.2 ++ attributesChars as from rfl,
      List.foldl_append, show (attributeChars a.1 a.2).foldl Mode.quoteAfter none = none from ?_]
    · exact ih fun b hb => hword b (List.mem_cons_of_mem _ hb)
    · simp only [attributeChars, List.cons_append, List.foldl_cons, List.foldl_append,
        List.append_assoc]
      rw [show Mode.quoteAfter none ' ' = none from rfl,
        quoteAfter_unquoted a.1 (hkey.not_mem rfl) (hkey.not_mem rfl),
        show Mode.quoteAfter (Mode.quoteAfter none '=') '"' = some '"' from rfl,
        quoteAfter_inside _ _ hquote]
      rfl

theorem not_mem_attributesChars {c : Char} (hc : c = '<' ∨ c = '>')
    {as : List (List Char × List Char)} (hword : ∀ a ∈ as, IsWord a.1) :
    c ∉ attributesChars as := by
  intro h
  obtain ⟨a, ha, hmem⟩ := List.mem_flatMap.1 h
  have hkey : c ∉ a.1 := (hword a ha).not_mem (by rcases hc with rfl | rfl <;> rfl)
  have hvalue : c ∉ escape a.2 := not_mem_escape (by rcases hc with h | h <;> simp [h]) a.2
  have hplain : c ∉ [' ', '=', '"'] := by rcases hc with rfl | rfl <;> decide
  simp only [List.mem_cons, List.not_mem_nil, or_false, not_or] at hplain
  obtain ⟨hblank, heq, hquote⟩ := hplain
  simp [attributeChars, hkey, hvalue, hblank, heq, hquote] at hmem

/-- The text between the angles of a start tag with attributes. -/
theorem isTagContent_written {name : List Char} (hname : IsWord name)
    {as : List (List Char × List Char)} (hword : ∀ a ∈ as, IsWord a.1) :
    IsTagContent (name ++ attributesChars as) where
  noEnd := by
    rw [List.mem_append, not_or]
    exact ⟨hname.not_mem rfl, not_mem_attributesChars (Or.inr rfl) hword⟩
  closed := by
    unfold quoteBehind
    rw [List.foldl_append, quoteAfter_unquoted name (hname.not_mem rfl) (hname.not_mem rfl)]
    exact quoteAfter_attributes as hword
  first := by
    obtain ⟨c, cs, rfl⟩ := List.exists_cons_of_ne_nil hname.1
    have halpha := hname.2 c List.mem_cons_self
    refine ⟨c, _, rfl, ?_, ?_, ?_⟩ <;> rintro rfl <;> revert halpha <;> decide

/-- No written start tag looks like an empty element. -/
theorem getLast?_written {name : List Char} (hname : IsWord name)
    (as : List (List Char × List Char)) : (name ++ attributesChars as).getLast? ≠ some '/' := by
  rcases List.eq_nil_or_concat as with rfl | ⟨as, a, rfl⟩
  · intro h
    have hmem : '/' ∈ name := List.mem_of_getLast? (by simpa [attributesChars] using h)
    exact hname.not_mem rfl hmem
  · have hlast : ∃ front, name ++ attributesChars (as.concat a) = front ++ ['"'] :=
      ⟨name ++ (attributesChars as ++ (' ' :: a.1 ++ '=' :: '"' :: escape a.2)), by
        simp [attributesChars, attributeChars]⟩
    obtain ⟨front, hfront⟩ := hlast
    rw [hfront, List.getLast?_concat]
    decide

end AudioProject.Markup
