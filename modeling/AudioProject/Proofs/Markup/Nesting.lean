import AudioProject.Proofs.Markup.Balance
import Mathlib.Data.List.Count

/-
  Which elements are open at a place of a text. End tags close the innermost element (`Nests`), so
  an element is open as often as its name was started and not ended (`Nests.count`). A text may also
  be cut inside character data (`Leads`): what is behind it has the same events as it has alone, but
  for the character data at the cut, which becomes one piece (`Leads.eventsIn_append`).
-/

namespace AudioProject.Markup

/-- The events of a text. -/
def stream (s : String) : List Event := eventsIn [] (withoutMark s.toList)

/-! ## Open elements -/

/-- A start tag with a name. -/
def Event.starts (name : String) : Event → Bool
  | start tag => String.ofList tag.name = name
  | _ => false

/-- An end tag with a name. -/
def Event.ends (name : String) : Event → Bool
  | finish closed => String.ofList closed = name
  | _ => false

/-- An end tag has the name of the innermost open element. -/
def Event.Fits (opened : List (List Char)) : Event → Prop
  | finish name => opened.head? = some name
  | _ => True

/-- Every end tag has the name of the element that is innermost where it stands. -/
def Nests (opened : List (List Char)) : List Event → Prop
  | [] => True
  | e :: es => e.Fits opened ∧ Nests (e.nest opened) es

theorem nests_append_iff {opened : List (List Char)} {es fs : List Event} :
    Nests opened (es ++ fs) ↔ Nests opened es ∧ Nests (es.foldl Event.nest opened) fs := by
  induction es generalizing opened with
  | nil => simp [Nests]
  | cons e es ih => simp [Nests, ih, and_assoc]

theorem nests_eventsOf (opened : List (List Char)) (xs : List Lexeme) :
    Nests opened (eventsOf opened xs) := by
  induction xs generalizing opened with
  | nil => trivial
  | cons x xs ih =>
    cases x with
    | text raw => exact ⟨trivial, ih opened⟩
    | cdata content => exact ⟨trivial, ih opened⟩
    | fault e => exact ⟨trivial, trivial⟩
    | tag content =>
      by_cases hslash : content.getLast? = some '/'
      · rw [eventsOf_empty hslash]
        exact ⟨trivial, ih opened⟩
      · rw [eventsOf_start hslash]
        exact ⟨trivial, ih _⟩
    | close content =>
      cases opened with
      | nil => exact ⟨trivial, trivial⟩
      | cons top rest =>
        by_cases hname : closingName content = top
        · rw [eventsOf_finish hname]
          exact ⟨rfl, ih rest⟩
        · rw [eventsOf_mismatch hname]
          exact ⟨trivial, trivial⟩

theorem nests_eventsIn (opened : List (List Char)) (cs : List Char) :
    Nests opened (eventsIn opened cs) :=
  nests_eventsOf _ _

/-- The names of the elements that are open behind events, innermost first. -/
def openIn (es : List Event) : List String := (es.foldl Event.nest []).map String.ofList

/-- An element is open as often as it was started and not ended. -/
theorem Nests.count {opened : List (List Char)} {es : List Event} (h : Nests opened es)
    (name : String) :
    ((es.foldl Event.nest opened).map String.ofList).count name + es.countP (Event.ends name) =
      (opened.map String.ofList).count name + es.countP (Event.starts name) := by
  induction es generalizing opened with
  | nil => rfl
  | cons e es ih =>
    obtain ⟨hfits, hrest⟩ := h
    have hcount := ih hrest
    rw [List.foldl_cons, List.countP_cons, List.countP_cons]
    cases e with
    | start tag =>
      simp only [Event.nest, List.map_cons, List.count_cons, beq_iff_eq] at hcount
      simp only [Event.nest, Event.ends, Event.starts, decide_eq_true_eq, Bool.false_eq_true,
        if_false]
      omega
    | finish closed =>
      obtain ⟨rest, rfl⟩ := List.head?_eq_some_iff.1 hfits
      simp only [Event.nest, List.tail_cons] at hcount
      simp only [Event.nest, List.tail_cons, Event.ends, Event.starts, List.map_cons,
        List.count_cons, beq_iff_eq, decide_eq_true_eq, Bool.false_eq_true, if_false]
      omega
    | empty tag => simpa [Event.nest, Event.ends, Event.starts] using hcount
    | text raw => simpa [Event.nest, Event.ends, Event.starts] using hcount
    | cdata content => simpa [Event.nest, Event.ends, Event.starts] using hcount
    | fault e => simpa [Event.nest, Event.ends, Event.starts] using hcount

theorem Nests.count_openIn {es : List Event} (h : Nests [] es) (name : String) :
    (openIn es).count name + es.countP (Event.ends name) = es.countP (Event.starts name) := by
  unfold openIn
  simpa using h.count name

/-! ## Inside character data -/

/-- Character data leaves a lexeme if there is any. -/
def dataLexemes (raw : List Char) : List Lexeme := if raw = [] then [] else [.text raw]

/-- Character data is an event if there is any. -/
def dataEvents (raw : List Char) : List Event := (if raw = [] then [] else [raw]).map .text

theorem eventsOf_data (opened : List (List Char)) (raw : List Char) (xs : List Lexeme) :
    eventsOf opened (dataLexemes raw ++ xs) = dataEvents raw ++ eventsOf opened xs := by
  unfold dataLexemes dataEvents
  by_cases h : raw = []
  · simp [h]
  · rw [if_neg h, if_neg h]
    rfl

theorem foldl_nest_data (raw : List Char) (opened : List (List Char)) :
    (dataEvents raw).foldl Event.nest opened = opened :=
  (balanced_texts _).foldl_nest opened

/-- A tag ends the character data in front of it. -/
theorem unplaced_lexFrom_data (acc : List Char) (start position : Nat) (cs : List Char) :
    unplaced (lexFrom (.data acc) start position ('<' :: cs)) =
      dataLexemes acc.reverse ++ unplaced (lexFrom (.data []) 0 0 ('<' :: cs)) := by
  cases acc with
  | nil => exact unplaced_lexFrom _ _ _ _ _ _
  | cons c acc =>
    have hmove : (Mode.data (c :: acc)).move '<' = .endText (c :: acc).reverse := rfl
    have hdata : dataLexemes (c :: acc).reverse = [.text (c :: acc).reverse] :=
      if_neg (by simp)
    rw [lexFrom, hmove, hdata]
    exact congrArg (_ :: ·) (unplaced_lexFrom _ _ _ _ _ _)

/-- What is open in front of a text only lengthens the character data it begins with. -/
theorem exists_lexFrom_data (cs : List Char) :
    ∃ raw xs, ∀ acc start position, unplaced (lexFrom (.data acc) start position cs) =
      dataLexemes (acc.reverse ++ raw) ++ xs := by
  induction cs with
  | nil =>
    refine ⟨[], [], fun acc start position => ?_⟩
    cases acc with
    | nil => rfl
    | cons c acc =>
      rw [List.append_nil, List.append_nil, dataLexemes, if_neg (by simp)]
      rfl
  | cons c cs ih =>
    by_cases hc : c = '<'
    · subst hc
      refine ⟨[], unplaced (lexFrom (.data []) 0 0 ('<' :: cs)), fun acc start position => ?_⟩
      rw [List.append_nil]
      exact unplaced_lexFrom_data acc start position cs
    · obtain ⟨raw, xs, h⟩ := ih
      refine ⟨c :: raw, xs, fun acc start position => ?_⟩
      have hmove : (Mode.data acc).move c = .stay (.data (c :: acc)) := by
        cases acc <;> simp [Mode.move, hc]
      rw [lexFrom, hmove]
      dsimp only
      rw [h, List.reverse_cons, List.append_assoc, List.singleton_append]

/-- A text that ends in content: the events that are complete in it, and the character data that
stands behind them. -/
structure Leads (cs : List Char) (es : List Event) (raw : List Char) : Prop where
  cut : ∃ xs, (Mode.data []).cut cs = some (xs, .data raw.reverse) ∧ eventsOf [] xs = es
  sound : ∀ e ∈ es, e.isFault = false

section Leads

variable {cs : List Char} {es : List Event} {raw : List Char}

theorem Leads.nests (h : Leads cs es raw) : Nests [] es := by
  obtain ⟨xs, -, rfl⟩ := h.cut
  exact nests_eventsOf [] xs

/-- The text behind a cut has the events it has alone, but for the character data it begins
with. -/
theorem Leads.eventsIn_append (h : Leads cs es raw) (opened : List (List Char))
    (ds : List Char) :
    ∃ raw' fs, eventsIn (es.foldl Event.nest [] ++ opened) ds = dataEvents raw' ++ fs ∧
      eventsIn opened (cs ++ ds) = es ++ (dataEvents (raw ++ raw') ++ fs) := by
  obtain ⟨xs, hcut, rfl⟩ := h.cut
  obtain ⟨raw', ys, hdata⟩ := exists_lexFrom_data ds
  refine ⟨raw', eventsOf ((eventsOf [] xs).foldl Event.nest [] ++ opened) ys, ?_, ?_⟩
  · unfold eventsIn lexemes
    rw [hdata, List.reverse_nil, List.nil_append, eventsOf_data]
  · unfold eventsIn lexemes
    rw [unplaced_lexFrom_append hcut, hdata, List.reverse_reverse, ← List.nil_append opened,
      eventsOf_append h.sound, eventsOf_data]
    simp

theorem Leads.eventsIn_eq (h : Leads cs es raw) : eventsIn [] cs = es ++ dataEvents raw := by
  obtain ⟨raw', fs, halone, hevents⟩ := h.eventsIn_append [] []
  have hnone : dataEvents raw' ++ fs = [] := halone.symm
  obtain ⟨hdata, rfl⟩ := List.append_eq_nil_iff.1 hnone
  have hraw : raw' = [] := by
    by_contra hne
    simp [dataEvents, hne] at hdata
  rwa [hraw, List.append_nil, List.append_nil, List.append_nil] at hevents

/-- A tag leaves the character data in front of it as it is. -/
theorem Leads.eventsIn_tag (h : Leads cs es raw) (ds : List Char) :
    eventsIn [] (cs ++ '<' :: ds) =
      eventsIn [] cs ++ eventsIn ((eventsIn [] cs).foldl Event.nest []) ('<' :: ds) := by
  rw [h.eventsIn_eq, List.foldl_append, foldl_nest_data, List.append_assoc]
  obtain ⟨xs, hcut, rfl⟩ := h.cut
  have happend := eventsOf_append h.sound []
    (dataLexemes raw ++ unplaced (lexFrom (.data []) 0 0 ('<' :: ds)))
  rw [eventsOf_data, List.append_nil, List.append_nil] at happend
  unfold eventsIn lexemes
  rw [unplaced_lexFrom_append hcut, unplaced_lexFrom_data, List.reverse_reverse]
  exact happend

end Leads

/-! ## Behind a fault -/

theorem unplaced_lexFrom_of_cut_eq_none {m : Mode} {cs : List Char} (h : m.cut cs = none)
    (start position : Nat) (ds : List Char) :
    unplaced (lexFrom m start position (cs ++ ds)) = unplaced (lexFrom m start position cs) := by
  induction cs generalizing m start position with
  | nil => cases h
  | cons c cs ih =>
    rw [Mode.cut] at h
    rw [List.cons_append, lexFrom, lexFrom]
    cases hmove : m.move c with
    | stay m =>
      rw [hmove] at h
      exact ih h _ _
    | endText raw =>
      rw [hmove] at h
      exact congrArg (Lexeme.text raw :: ·) (ih (Option.map_eq_none_iff.1 h) _ _)
    | endWith x =>
      rw [hmove] at h
      exact congrArg (x :: ·) (ih (Option.map_eq_none_iff.1 h) _ _)
    | skip =>
      rw [hmove] at h
      exact ih h _ _
    | fail e => rfl

/-- There is a fault in a text that cannot be cut at its end. -/
theorem exists_fault_of_cut_eq_none {m : Mode} {cs : List Char} (h : m.cut cs = none)
    (start position : Nat) : ∃ e, Lexeme.fault e ∈ unplaced (lexFrom m start position cs) := by
  induction cs generalizing m start position with
  | nil => cases h
  | cons c cs ih =>
    rw [Mode.cut] at h
    rw [lexFrom]
    cases hmove : m.move c with
    | stay m =>
      rw [hmove] at h
      exact ih h _ _
    | endText raw =>
      rw [hmove] at h
      obtain ⟨e, he⟩ := ih (Option.map_eq_none_iff.1 h) position (position + c.utf8Size)
      exact ⟨e, List.mem_cons_of_mem _ he⟩
    | endWith x =>
      rw [hmove] at h
      obtain ⟨e, he⟩ := ih (Option.map_eq_none_iff.1 h) (position + c.utf8Size)
        (position + c.utf8Size)
      exact ⟨e, List.mem_cons_of_mem _ he⟩
    | skip =>
      rw [hmove] at h
      exact ih h _ _
    | fail e => exact ⟨e, List.mem_cons_self⟩

/-- A lexeme is a fault, behind which nothing stands, or one event in front of those of the others.
-/
theorem eventsOf_cons_cases (opened : List (List Char)) (x : Lexeme) :
    (∃ e : Event, e.isFault = true ∧ ∀ xs, eventsOf opened (x :: xs) = [e]) ∨
      ∃ (e : Event) (opened' : List (List Char)), e.isFault = false ∧
        ∀ xs, eventsOf opened (x :: xs) = e :: eventsOf opened' xs := by
  cases x with
  | text raw => exact Or.inr ⟨.text raw, opened, rfl, fun _ => rfl⟩
  | cdata content => exact Or.inr ⟨.cdata content, opened, rfl, fun _ => rfl⟩
  | fault e => exact Or.inl ⟨.fault e, rfl, fun _ => rfl⟩
  | tag content =>
    by_cases hslash : content.getLast? = some '/'
    · exact Or.inr ⟨_, _, rfl, eventsOf_empty hslash opened⟩
    · exact Or.inr ⟨_, _, rfl, eventsOf_start hslash opened⟩
  | close content =>
    cases opened with
    | nil => exact Or.inl ⟨_, rfl, fun _ => rfl⟩
    | cons top rest =>
      by_cases hname : closingName content = top
      · exact Or.inr ⟨_, _, rfl, eventsOf_finish hname rest⟩
      · exact Or.inl ⟨_, rfl, eventsOf_mismatch hname rest⟩

/-- A lexeme that is a fault is one of the events, or another fault stands in front of it. -/
theorem exists_fault_eventsOf {xs : List Lexeme} {e : Fault} (h : .fault e ∈ xs)
    (opened : List (List Char)) : ∃ f ∈ eventsOf opened xs, f.isFault = true := by
  induction xs generalizing opened with
  | nil => cases h
  | cons x xs ih =>
    rcases eventsOf_cons_cases opened x with ⟨f, hfault, heq⟩ | ⟨f, opened', hsound, heq⟩
    · exact ⟨f, by rw [heq]; exact List.mem_cons_self, hfault⟩
    · rcases List.mem_cons.1 h with rfl | h
      · obtain rfl := (List.cons.inj (heq [])).1
        cases hsound
      · obtain ⟨fault, hmem, hfault⟩ := ih h opened'
        exact ⟨fault, by rw [heq]; exact List.mem_cons_of_mem _ hmem, hfault⟩

theorem eventsOf_append_of_fault {opened : List (List Char)} {xs : List Lexeme}
    (h : ∃ e ∈ eventsOf opened xs, e.isFault = true) (ys : List Lexeme) :
    eventsOf opened (xs ++ ys) = eventsOf opened xs := by
  induction xs generalizing opened with
  | nil =>
    obtain ⟨e, he, -⟩ := h
    cases he
  | cons x xs ih =>
    rw [List.cons_append]
    rcases eventsOf_cons_cases opened x with ⟨f, -, heq⟩ | ⟨f, opened', hsound, heq⟩
    · rw [heq, heq]
    · obtain ⟨fault, hmem, hfault⟩ := h
      rw [heq, heq]
      rw [heq] at hmem
      rcases List.mem_cons.1 hmem with rfl | hmem
      · rw [hsound] at hfault
        cases hfault
      · rw [ih ⟨fault, hmem, hfault⟩]

/-- What is open behind a text, if it has no fault, is character data. -/
def EndsInData (cs : List Char) : Prop :=
  ∀ xs m, (Mode.data []).cut cs = some (xs, m) → ∃ acc, m = .data acc

theorem endsInData_of_cut {cs acc : List Char} {xs : List Lexeme}
    (h : (Mode.data []).cut cs = some (xs, .data acc)) : EndsInData cs := by
  intro ys m hcut
  cases hcut.symm.trans h
  exact ⟨acc, rfl⟩

/-- A tag in content stands behind the events in front of it, unless there is a fault among them,
and then no event stands behind them. -/
theorem EndsInData.leads_or_fault {cs : List Char} (h : EndsInData cs) :
    (∃ es raw, Leads cs es raw) ∨
      (∃ e ∈ eventsIn [] cs, e.isFault = true) ∧
        ∀ ds, eventsIn [] (cs ++ ds) = eventsIn [] cs := by
  cases hcut : (Mode.data []).cut cs with
  | none =>
    obtain ⟨e, he⟩ := exists_fault_of_cut_eq_none hcut 0 0
    refine Or.inr ⟨exists_fault_eventsOf he [], fun ds => ?_⟩
    unfold eventsIn lexemes
    rw [unplaced_lexFrom_of_cut_eq_none hcut]
  | some x =>
    obtain ⟨xs, m⟩ := x
    obtain ⟨acc, rfl⟩ := h xs m hcut
    by_cases hfault : ∃ e ∈ eventsOf [] xs, e.isFault = true
    · have hevents : ∀ ds, eventsIn [] (cs ++ ds) = eventsOf [] xs := by
        intro ds
        unfold eventsIn lexemes
        rw [unplaced_lexFrom_append hcut, eventsOf_append_of_fault hfault]
      have hsame : eventsIn [] cs = eventsOf [] xs := by
        rw [← hevents [], List.append_nil]
      exact Or.inr ⟨hsame ▸ hfault, fun ds => (hevents ds).trans hsame.symm⟩
    · refine Or.inl ⟨eventsOf [] xs, acc.reverse, ⟨xs, by rwa [List.reverse_reverse], rfl⟩, ?_⟩
      intro e he
      by_contra hne
      exact hfault ⟨e, he, eq_true_of_ne_false hne⟩

end AudioProject.Markup
