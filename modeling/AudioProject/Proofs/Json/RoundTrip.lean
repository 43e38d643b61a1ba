import AudioProject.Json.Printing
import AudioProject.Json.Reading
import Mathlib.Data.List.Forall2

/-
  What is printed with indents is read back as the value that it was.
  `cuts_pretty`: the text of a value is cut into the tokens of the value.
  `build?_tokensOf`: the tokens of a value are put together to the value.
  `parse?_pretty`: the two together, for values whose numbers are written as numbers.
-/

namespace AudioProject.Json

/-! ## Tokens of a text -/

/-- A character that ends a number or a word. -/
def endsBare (c : Char) : Bool := isJsonBlank c || c = '"' || (punctuation? c).isSome

/-- No number or word goes on in `cs`. -/
def Ends (cs : List Char) : Prop := ∀ c ∈ cs.head?, endsBare c = true

/-- The text is cut into these tokens, whatever follows it. -/
def Cuts (text : List Char) (ts : List Token) : Prop :=
  ∀ rest, tokensFrom? .between (text ++ rest) = (tokensFrom? .between rest).map (ts ++ ·)

/-- The text is cut into these tokens if what follows it ends a word. -/
def CutsBefore (text : List Char) (ts : List Token) : Prop :=
  ∀ rest, Ends rest →
    tokensFrom? .between (text ++ rest) = (tokensFrom? .between rest).map (ts ++ ·)

theorem tokensFrom?_cons {m : Mode} {c : Char} (ts : List Token) (m' : Mode)
    (h : step m c = some (ts, m')) (cs : List Char) :
    tokensFrom? m (c :: cs) = (tokensFrom? m' cs).map (ts ++ ·) := by
  rw [tokensFrom?, h]
  dsimp only
  cases tokensFrom? m' cs <;> rfl

theorem tokensFrom?_silent {m : Mode} {c : Char} (m' : Mode) (h : step m c = some ([], m'))
    (cs : List Char) : tokensFrom? m (c :: cs) = tokensFrom? m' cs := by
  rw [tokensFrom?_cons [] m' h]
  simp

theorem Cuts.before {text : List Char} {ts : List Token} (h : Cuts text ts) :
    CutsBefore text ts := fun rest _ => h rest

theorem Cuts.append {a b : List Char} {ts us : List Token} (ha : Cuts a ts) (hb : Cuts b us) :
    Cuts (a ++ b) (ts ++ us) := by
  intro rest
  rw [List.append_assoc, ha, hb, Option.map_map]
  exact congrArg (Option.map · _) (funext fun vs => (List.append_assoc ts us vs).symm)

theorem CutsBefore.append {a b : List Char} {ts us : List Token} (ha : CutsBefore a ts)
    (hends : ∀ rest, Ends (b ++ rest)) (hb : Cuts b us) : Cuts (a ++ b) (ts ++ us) := by
  intro rest
  rw [List.append_assoc, ha _ (hends rest), hb, Option.map_map]
  exact congrArg (Option.map · _) (funext fun vs => (List.append_assoc ts us vs).symm)

theorem Cuts.append_before {a b : List Char} {ts us : List Token} (ha : Cuts a ts)
    (hb : CutsBefore b us) : CutsBefore (a ++ b) (ts ++ us) := by
  intro rest hrest
  rw [List.append_assoc, ha, hb rest hrest, Option.map_map]
  exact congrArg (Option.map · _) (funext fun vs => (List.append_assoc ts us vs).symm)

theorem cuts_nil : Cuts [] [] := fun rest => by simp

theorem cuts_blanks (cs : List Char) (h : ∀ c ∈ cs, isJsonBlank c = true) : Cuts cs [] := by
  induction cs with
  | nil => exact cuts_nil
  | cons c cs ih =>
    have hc : Cuts [c] [] := fun rest => by
      rw [List.singleton_append, tokensFrom?_silent .between
        (by simp [step, begin, h c List.mem_cons_self])]
      simp
    exact hc.append (ih fun d hd => h d (List.mem_cons_of_mem _ hd))

theorem cuts_punctuation {c : Char} {t : Token} (hblank : isJsonBlank c = false)
    (hquote : c ≠ '"') (h : punctuation? c = some t) : Cuts [c] [t] := fun rest => by
  rw [List.singleton_append,
    tokensFrom?_cons [t] .between (by simp [step, begin, hblank, hquote, h])]

theorem cuts_newline (depth : Nat) : Cuts (newline depth).toList [] := by
  refine cuts_blanks _ fun c hc => ?_
  have hmem : c = '\n' ∨ c = ' ' := by
    simp only [newline, String.toList_append, String.toList_ofList, List.mem_append] at hc
    rcases hc with hc | hc
    · exact .inl (by simpa using hc)
    · exact .inr (List.eq_of_mem_replicate hc)
  rcases hmem with rfl | rfl <;> rfl

theorem ends_newline (depth : Nat) (rest : List Char) : Ends ((newline depth).toList ++ rest) := by
  intro c hc
  have : c = '\n' := by simpa [newline, eq_comm] using hc
  subst this
  rfl

/-! ## Words -/

/-- The text is a number or a word that nothing inside it ends. -/
def IsBare (cs : List Char) : Prop := cs ≠ [] ∧ ∀ c ∈ cs, endsBare c = false

instance (cs : List Char) : Decidable (IsBare cs) :=
  @instDecidableAnd _ _ inferInstance (List.decidableBAll _ cs)

theorem tokensFrom?_bare (cs : List Char) (h : ∀ c ∈ cs, endsBare c = false)
    (acc rest : List Char) :
    tokensFrom? (.bare acc) (cs ++ rest) = tokensFrom? (.bare (cs.reverse ++ acc)) rest := by
  induction cs generalizing acc with
  | nil => rfl
  | cons c cs ih =>
    have hc : endsBare c = false := h c List.mem_cons_self
    unfold endsBare at hc
    rw [List.cons_append, tokensFrom?_silent (.bare (c :: acc)) (by simp [step, hc]),
      ih fun d hd => h d (List.mem_cons_of_mem _ hd)]
    simp

theorem tokensFrom?_ended {rest : List Char} (h : Ends rest) (acc : List Char) :
    tokensFrom? (.bare acc) rest =
      (tokensFrom? .between rest).map ([.bare acc.reverse] ++ ·) := by
  cases rest with
  | nil => rfl
  | cons c cs =>
    have hc : endsBare c = true := h c rfl
    unfold endsBare at hc
    rw [tokensFrom?_cons (.bare acc.reverse :: (begin c).1) (begin c).2 (by simp [step, hc]),
      tokensFrom?_cons (m := .between) (begin c).1 (begin c).2 rfl, Option.map_map]
    rfl

theorem cuts_bare {cs : List Char} (h : IsBare cs) : CutsBefore cs [.bare cs] := by
  intro rest hrest
  obtain ⟨c, cs, rfl⟩ := List.exists_cons_of_ne_nil h.1
  have hc : endsBare c = false := h.2 c List.mem_cons_self
  have hbegin : step .between c = some ([], .bare [c]) := by
    simp only [endsBare, Bool.or_eq_false_iff, decide_eq_false_iff_not, Option.isSome_eq_false_iff,
      Option.isNone_iff_eq_none] at hc
    simp [step, begin, hc]
  rw [List.cons_append, tokensFrom?_silent (.bare [c]) hbegin,
    tokensFrom?_bare cs (fun d hd => h.2 d (List.mem_cons_of_mem _ hd)), tokensFrom?_ended hrest]
  simp

/-! ## Strings -/

theorem hexValue?_hexDigit (n : Nat) : hexValue? (hexDigit n) = some (n % 16) := by
  have hall : ∀ d < 16, hexValue? (Nat.digitChar d) = some d := by decide
  exact hall (n % 16) (Nat.mod_lt n (by decide))

/-- A character that stands behind a backslash for another one. -/
theorem tokensFrom?_escaped {c d : Char} (hc : c ≠ 'u') (h : escaped? c = some d)
    (acc rest : List Char) :
    tokensFrom? (.string acc) ('\\' :: c :: rest) = tokensFrom? (.string (d :: acc)) rest := by
  rw [tokensFrom?_silent (.escape acc) rfl,
    tokensFrom?_silent (.string (d :: acc)) (by simp [step, hc, h])]

/-- A control in its four digits, of which the first two are zeros. -/
theorem tokensFrom?_control {n : Nat} (hn : n < 0x20) (acc rest : List Char) :
    tokensFrom? (.string acc)
        ('\\' :: 'u' :: '0' :: '0' :: hexDigit (n / 16) :: hexDigit n :: rest) =
      tokensFrom? (.string (Char.ofNat n :: acc)) rest := by
  have hunit : 16 * (n / 16 % 16) + n % 16 = n := by omega
  have hafter : afterUnit? acc none n = some (.string (Char.ofNat n :: acc)) := by
    rw [afterUnit?, if_neg (by omega), if_neg (by omega)]
  rw [tokensFrom?_silent (.escape acc) rfl,
    tokensFrom?_silent (.unit acc none 4 0) rfl,
    tokensFrom?_silent (.unit acc none 3 0) rfl,
    tokensFrom?_silent (.unit acc none 2 0) rfl,
    tokensFrom?_silent (.unit acc none 1 (n / 16 % 16))
      (by simp [step, hexValue?_hexDigit]),
    tokensFrom?_silent (.string (Char.ofNat n :: acc))
      (by simp [step, hexValue?_hexDigit, hunit, hafter])]

/-- A character inside quotes is read back, in whatever form it is written. -/
theorem tokensFrom?_stringChar (c : Char) (acc rest : List Char) :
    tokensFrom? (.string acc) (stringChar c ++ rest) = tokensFrom? (.string (c :: acc)) rest := by
  unfold stringChar
  split
  · next h => subst h; exact tokensFrom?_escaped (by decide) rfl acc rest
  split
  · next h => subst h; exact tokensFrom?_escaped (by decide) rfl acc rest
  split
  · next h => subst h; exact tokensFrom?_escaped (by decide) rfl acc rest
  split
  · next h => subst h; exact tokensFrom?_escaped (by decide) rfl acc rest
  split
  · next h => subst h; exact tokensFrom?_escaped (by decide) rfl acc rest
  split
  · next h => subst h; exact tokensFrom?_escaped (by decide) rfl acc rest
  split
  · next h => subst h; exact tokensFrom?_escaped (by decide) rfl acc rest
  split
  · next h =>
    have hread := tokensFrom?_control h acc rest
    rw [Char.ofNat_toNat] at hread
    exact hread
  · next hquote hbackslash _ _ _ _ _ hcontrol =>
    exact tokensFrom?_silent (.string (c :: acc))
      (by simp [step, hquote, hbackslash, hcontrol]) rest

theorem tokensFrom?_stringChars (cs acc rest : List Char) :
    tokensFrom? (.string acc) (cs.flatMap stringChar ++ rest) =
      tokensFrom? (.string (cs.reverse ++ acc)) rest := by
  induction cs generalizing acc with
  | nil => rfl
  | cons c cs ih =>
    rw [List.flatMap_cons, List.append_assoc, tokensFrom?_stringChar, ih]
    simp

theorem cuts_string (s : String) : Cuts (string s).toList [.str s] := by
  intro rest
  have hend : step (.string s.toList.reverse) '"' = some ([.str s], .between) := by
    simp [step]
  rw [string, String.toList_ofList]
  simp only [List.cons_append, List.append_assoc, List.nil_append]
  rw [tokensFrom?_silent (.string []) rfl, tokensFrom?_stringChars, List.append_nil,
    tokensFrom?_cons [.str s] .between hend]
  rfl

/-! ## The tokens of a value -/

mutual

def tokensOf : Json → List Token
  | null => [.bare "null".toList]
  | bool b => [.bare (if b then "true" else "false").toList]
  | num t => [.bare t.toList]
  | str s => [.str s]
  | arr xs => .openArray :: ([Token.comma].intercalate (tokensOfItems xs) ++ [.closeArray])
  | obj ms => .openObject :: ([Token.comma].intercalate (tokensOfMembers ms) ++ [.closeObject])

def tokensOfItems : List Json → List (List Token)
  | [] => []
  | x :: xs => tokensOf x :: tokensOfItems xs

def tokensOfMembers : List (String × Json) → List (List Token)
  | [] => []
  | (k, v) :: ms => (.str k :: .colon :: tokensOf v) :: tokensOfMembers ms

end

mutual

/-- Every number in the value is written as one. -/
def Readable : Json → Prop
  | null => True
  | bool _ => True
  | num t => IsBare t.toList ∧ ofBare? t.toList = some (num t)
  | str _ => True
  | arr xs => ReadableItems xs
  | obj ms => ReadableMembers ms

def ReadableItems : List Json → Prop
  | [] => True
  | x :: xs => Readable x ∧ ReadableItems xs

def ReadableMembers : List (String × Json) → Prop
  | [] => True
  | (_, v) :: ms => Readable v ∧ ReadableMembers ms

end

/-! ## Cutting the text of a value -/

/-- Items that are cut one by one are cut in a row, with commas on lines of their own between
them. -/
theorem cuts_intercalate {depth : Nat} {items : List String} {tss : List (List Token)}
    (h : List.Forall₂ (fun text ts => CutsBefore text.toList ts) items tss) :
    CutsBefore (("," ++ newline depth).intercalate items).toList
      ([Token.comma].intercalate tss) := by
  have hsep : Cuts ("," ++ newline depth).toList [.comma] := by
    rw [String.toList_append]
    exact (cuts_punctuation rfl (by decide) rfl).append (cuts_newline depth)
  have hends (rest : List Char) : Ends (("," ++ newline depth).toList ++ rest) := by
    rw [String.toList_append]
    intro c hc
    cases hc
    rfl
  induction h with
  | nil => exact cuts_nil.before
  | @cons text ts texts tss htext htexts ih =>
    cases htexts with
    | nil => simpa using htext
    | cons h hs =>
      rw [String.intercalate_cons_cons, List.intercalate_cons_cons, String.toList_append,
        String.toList_append]
      exact (htext.append hends hsep).append_before ih

/-- Brackets around items, each on a line of its own. -/
theorem cuts_block {first last : String} {opening closing : Token} {depth : Nat}
    {items : List String} {tss : List (List Token)}
    (hfirst : Cuts first.toList [opening]) (hlast : Cuts last.toList [closing])
    (h : List.Forall₂ (fun text ts => CutsBefore text.toList ts) items tss) :
    Cuts (block first last depth items).toList
      (opening :: ([Token.comma].intercalate tss ++ [closing])) := by
  unfold block
  split
  · next hempty =>
    rw [List.isEmpty_iff] at hempty
    subst hempty
    cases h
    rw [String.toList_append]
    exact hfirst.append hlast
  · have hitems : Cuts (("," ++ newline (depth + 1)).intercalate items ++ newline depth).toList
        ([Token.comma].intercalate tss ++ []) := by
      rw [String.toList_append]
      exact (cuts_intercalate h).append (ends_newline depth) (cuts_newline depth)
    have hbody := ((hfirst.append (cuts_newline (depth + 1))).append hitems).append hlast
    simpa only [String.toList_append, List.append_assoc, List.singleton_append, List.nil_append,
      List.append_nil, List.cons_append] using hbody

theorem cuts_opening : Cuts "[".toList [.openArray] ∧ Cuts "\x7b".toList [.openObject] :=
  ⟨cuts_punctuation (c := '[') rfl (by decide) rfl,
   cuts_punctuation (c := '\x7b') rfl (by decide) rfl⟩

theorem cuts_closing : Cuts "]".toList [.closeArray] ∧ Cuts "\x7d".toList [.closeObject] :=
  ⟨cuts_punctuation (c := ']') rfl (by decide) rfl,
   cuts_punctuation (c := '\x7d') rfl (by decide) rfl⟩

theorem cuts_colon : Cuts ": ".toList [.colon] :=
  (cuts_punctuation (c := ':') rfl (by decide) rfl).append (cuts_blanks [' '] (by simp [isJsonBlank]))

mutual

/-- The text of a value is cut into its tokens. -/
theorem cuts_pretty (depth : Nat) (v : Json) (h : v.Readable) :
    CutsBefore (prettyAt depth v).toList (tokensOf v) := by
  cases v with
  | null => exact cuts_bare (show IsBare "null".toList by decide)
  | bool b =>
    cases b with
    | true => exact cuts_bare (show IsBare "true".toList by decide)
    | false => exact cuts_bare (show IsBare "false".toList by decide)
  | num t => exact cuts_bare h.1
  | str s => exact (cuts_string s).before
  | arr xs =>
    exact (cuts_block cuts_opening.1 cuts_closing.1 (cuts_prettyItems (depth + 1) xs h)).before
  | obj ms =>
    exact (cuts_block cuts_opening.2 cuts_closing.2 (cuts_prettyMembers (depth + 1) ms h)).before

theorem cuts_prettyItems (depth : Nat) (xs : List Json) (h : ReadableItems xs) :
    List.Forall₂ (fun text ts => CutsBefore text.toList ts) (prettyItems depth xs)
      (tokensOfItems xs) := by
  cases xs with
  | nil => exact .nil
  | cons x xs => exact .cons (cuts_pretty depth x h.1) (cuts_prettyItems depth xs h.2)

theorem cuts_prettyMembers (depth : Nat) (ms : List (String × Json)) (h : ReadableMembers ms) :
    List.Forall₂ (fun text ts => CutsBefore text.toList ts) (prettyMembers depth ms)
      (tokensOfMembers ms) := by
  cases ms with
  | nil => exact .nil
  | cons m ms =>
    obtain ⟨k, v⟩ := m
    refine .cons ?_ (cuts_prettyMembers depth ms h.2)
    rw [String.toList_append, String.toList_append]
    exact ((cuts_string k).append cuts_colon).append_before (cuts_pretty depth v h.1)

end

/-! ## Building a value -/

/-- The first token of a value opens one. -/
theorem tokensOf_eq_cons (v : Json) : ∃ t ts, tokensOf v = t :: ts ∧ t ≠ .closeArray := by
  cases v with
  | null => exact ⟨_, _, rfl, by decide⟩
  | bool b => exact ⟨_, _, rfl, by simp⟩
  | num t => exact ⟨_, _, rfl, by simp⟩
  | str s => exact ⟨_, _, rfl, by simp⟩
  | arr xs => exact ⟨_, _, rfl, by decide⟩
  | obj ms => exact ⟨_, _, rfl, by decide⟩

theorem build?_cons {stack : List Frame} {e : Expect} {t : Token} (stack' : List Frame)
    (e' : Expect) (h : next? stack e t = some (stack', e')) (ts : List Token) :
    build? stack e (t :: ts) = build? stack' e' ts := by
  rw [build?, h]

/-- After the bracket a value is read as after a comma. -/
theorem build?_first (stack : List Frame) (v : Json) (ts : List Token) :
    build? stack .valueOrClose (tokensOf v ++ ts) =
      build? (.array [] :: stack) .value (tokensOf v ++ ts) := by
  obtain ⟨t, us, hv, ht⟩ := tokensOf_eq_cons v
  have hnext : next? stack .valueOrClose t = next? (.array [] :: stack) .value t := if_neg ht
  rw [hv, List.cons_append, build?, build?, hnext]

/-- Items with commas between them begin with the first one. -/
theorem intercalate_cons_append (ts : List Token) (tss : List (List Token)) (rest : List Token) :
    [Token.comma].intercalate (ts :: tss) ++ rest =
      ts ++ match tss with
        | [] => rest
        | us :: uss => .comma :: ([Token.comma].intercalate (us :: uss) ++ rest) := by
  cases tss with
  | nil => rw [List.intercalate_singleton]
  | cons us uss => simp [List.intercalate_cons_cons]

mutual

/-- The tokens of a value are put together to the value. -/
theorem build?_tokensOf (v : Json) (h : v.Readable) (stack : List Frame) (ts : List Token) :
    build? stack .value (tokensOf v ++ ts) = build? stack (.done v) ts := by
  cases v with
  | null => exact build?_cons _ _ rfl ts
  | bool b => cases b <;> exact build?_cons _ _ rfl ts
  | num t => exact build?_cons _ _ (by simp [next?, open?, h.2]) ts
  | str s => exact build?_cons _ _ rfl ts
  | arr xs =>
    rw [tokensOf, List.cons_append, build?_cons stack .valueOrClose rfl, List.append_assoc]
    cases xs with
    | nil => rfl
    | cons x xs =>
      rw [tokensOfItems, intercalate_cons_append, build?_first, ← intercalate_cons_append,
        ← tokensOfItems]
      exact build?_items (x :: xs) h (by simp) [] stack ts
  | obj ms =>
    rw [tokensOf, List.cons_append, build?_cons stack .keyOrClose rfl, List.append_assoc]
    cases ms with
    | nil => rfl
    | cons m ms => exact build?_members (m :: ms) h (by simp) [] stack ts .keyOrClose fun _ => rfl

/-- Items that follow those of `vs`. -/
theorem build?_items (xs : List Json) (h : ReadableItems xs) (hne : xs ≠ []) (vs : List Json)
    (stack : List Frame) (ts : List Token) :
    build? (.array vs :: stack) .value
        ([Token.comma].intercalate (tokensOfItems xs) ++ ([.closeArray] ++ ts)) =
      build? stack (.done (.arr (vs.reverse ++ xs))) ts := by
  cases xs with
  | nil => exact absurd rfl hne
  | cons x xs =>
    rw [tokensOfItems, intercalate_cons_append, build?_tokensOf x h.1]
    cases xs with
    | nil => exact build?_cons _ _ (by simp [next?, close?]) ts
    | cons y ys =>
      rw [tokensOfItems]
      dsimp only
      rw [build?_cons (.array (x :: vs) :: stack) .value rfl, ← tokensOfItems,
        build?_items (y :: ys) h.2 (by simp) (x :: vs)]
      simp

/-- Members that follow those of `us`, where a key is expected next. -/
theorem build?_members (ms : List (String × Json)) (h : ReadableMembers ms) (hne : ms ≠ [])
    (us : List (String × Json)) (stack : List Frame) (ts : List Token) (e : Expect)
    (he : ∀ k, next? stack e (.str k) = some (stack, .colon us k)) :
    build? stack e ([Token.comma].intercalate (tokensOfMembers ms) ++ ([.closeObject] ++ ts)) =
      build? stack (.done (.obj (us.reverse ++ ms))) ts := by
  cases ms with
  | nil => exact absurd rfl hne
  | cons m ms =>
    obtain ⟨k, v⟩ := m
    rw [tokensOfMembers, intercalate_cons_append, List.cons_append, List.cons_append,
      build?_cons stack (.colon us k) (he k), build?_cons (.object us k :: stack) .value rfl,
      build?_tokensOf v h.1]
    cases ms with
    | nil => exact build?_cons _ _ (by simp [next?, close?]) ts
    | cons m ms =>
      obtain ⟨l, w⟩ := m
      rw [tokensOfMembers]
      dsimp only
      rw [build?_cons stack (.key ((k, v) :: us)) rfl, ← tokensOfMembers,
        build?_members ((l, w) :: ms) h.2 (by simp) ((k, v) :: us) stack ts _ fun _ => rfl]
      simp

end

/-- What is printed with indents is read back as the value that it was. -/
theorem parse?_pretty {v : Json} (h : v.Readable) : parse? v.pretty = some v := by
  have htokens : tokens? v.pretty = some (tokensOf v) := by
    have hcuts := cuts_pretty 0 v h [] (fun c hc => nomatch hc)
    rw [List.append_nil] at hcuts
    rw [tokens?, pretty, hcuts]
    simp [tokensFrom?]
  have hbuild : build? [] .value (tokensOf v) = some v := by
    have hbuilt := build?_tokensOf v h [] []
    rw [List.append_nil] at hbuilt
    rw [hbuilt, build?]
  rw [parse?, htokens]
  exact hbuild

end AudioProject.Json
