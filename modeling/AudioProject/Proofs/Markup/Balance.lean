import AudioProject.Markup.Event

/-
  Text that is complete in itself. The lexer gets through a text with the lexemes that end in it
  and with something that is still open (`Mode.cut`). Where nothing is left open, and each end tag
  has its start tag in the text, the text has the same events wherever it stands: `Stands`,
  `Stands.eventsIn_append`.
  Events are compared here without the bytes they stand at, which move with the text in front.
-/

namespace AudioProject.Markup

/-! ## Without offsets -/

def unplaced {α : Type} (xs : List (Nat × α)) : List α := xs.map Prod.snd

@[simp] theorem unplaced_nil {α : Type} : unplaced ([] : List (Nat × α)) = [] := rfl

@[simp] theorem unplaced_cons {α : Type} (x : Nat × α) (xs : List (Nat × α)) :
    unplaced (x :: xs) = x.2 :: unplaced xs := rfl

theorem unplaced_atEnd (m : Mode) (start start' : Nat) :
    unplaced (m.atEnd start) = unplaced (m.atEnd start') := by
  cases m with
  | data acc => cases acc <;> rfl
  | instruction acc =>
    by_cases h : 2 ≤ acc.length ∧ acc.head? = some '?'
    · simp [Mode.atEnd, h]
    · simp [Mode.atEnd, if_neg h]
  | _ => rfl

theorem unplaced_lexFrom (m : Mode) (start position start' position' : Nat) (cs : List Char) :
    unplaced (lexFrom m start position cs) = unplaced (lexFrom m start' position' cs) := by
  induction cs generalizing m start position start' position' with
  | nil => exact unplaced_atEnd m start start'
  | cons c cs ih =>
    unfold lexFrom
    cases m.move c with
    | stay m => exact ih m _ _ _ _
    | endText raw => exact congrArg (Lexeme.text raw :: ·) (ih _ _ _ _ _)
    | endWith x => exact congrArg (x :: ·) (ih _ _ _ _ _)
    | skip => exact ih _ _ _ _ _
    | fail e => rfl

theorem unplaced_eventsFrom (opened : List (List Char)) {xs ys : List (Nat × Lexeme)}
    (h : unplaced xs = unplaced ys) :
    unplaced (eventsFrom opened xs) = unplaced (eventsFrom opened ys) := by
  induction xs generalizing opened ys with
  | nil =>
    rw [List.map_eq_nil_iff.1 h.symm]
  | cons x xs ih =>
    obtain ⟨y, ys, rfl, hy, hys⟩ := List.map_eq_cons_iff.1 h.symm
    obtain ⟨p, x⟩ := x
    obtain ⟨q, y⟩ := y
    dsimp only at hy
    subst hy
    have ih' := fun opened => ih opened hys.symm
    cases y with
    | text raw => exact congrArg (Event.text raw :: ·) (ih' _)
    | cdata content => exact congrArg (Event.cdata content :: ·) (ih' _)
    | fault e => rfl
    | tag content =>
      unfold eventsFrom
      split
      · exact congrArg (Event.empty _ :: ·) (ih' _)
      · exact congrArg (Event.start _ :: ·) (ih' _)
    | close content =>
      cases opened with
      | nil => rfl
      | cons top rest =>
        unfold eventsFrom
        dsimp only
        split
        · exact congrArg (Event.finish _ :: ·) (ih' _)
        · rfl

/-- The events of a sequence of lexemes inside the elements named by `opened`. -/
def eventsOf (opened : List (List Char)) (xs : List Lexeme) : List Event :=
  unplaced (eventsFrom opened (xs.map fun x => (0, x)))

theorem eventsOf_empty {content : List Char} (h : content.getLast? = some '/')
    (opened : List (List Char)) (xs : List Lexeme) :
    eventsOf opened (.tag content :: xs) =
      .empty (Tag.ofContent content.dropLast) :: eventsOf opened xs := by
  simp [eventsOf, eventsFrom, h]

theorem eventsOf_start {content : List Char} (h : content.getLast? ≠ some '/')
    (opened : List (List Char)) (xs : List Lexeme) :
    eventsOf opened (.tag content :: xs) =
      .start (Tag.ofContent content) :: eventsOf ((Tag.ofContent content).name :: opened) xs := by
  simp [eventsOf, eventsFrom, h]

theorem eventsOf_finish {content top : List Char} (h : closingName content = top)
    (rest : List (List Char)) (xs : List Lexeme) :
    eventsOf (top :: rest) (.close content :: xs) = .finish top :: eventsOf rest xs := by
  simp [eventsOf, eventsFrom, h]

theorem eventsOf_mismatch {content top : List Char} (h : closingName content ≠ top)
    (rest : List (List Char)) (xs : List Lexeme) :
    eventsOf (top :: rest) (.close content :: xs) =
      [.fault (.mismatch (String.ofList top) (String.ofList (closingName content)))] := by
  simp [eventsOf, eventsFrom, h]

theorem unplaced_eventsFrom_eq (opened : List (List Char)) (xs : List (Nat × Lexeme)) :
    unplaced (eventsFrom opened xs) = eventsOf opened (unplaced xs) := by
  refine unplaced_eventsFrom opened ?_
  simp [unplaced]

/-- The events of a text inside the elements named by `opened`. -/
def eventsIn (opened : List (List Char)) (cs : List Char) : List Event :=
  eventsOf opened (unplaced (lexemes cs))

theorem unplaced_events (cs : List Char) : unplaced (events cs) = eventsIn [] (withoutMark cs) :=
  unplaced_eventsFrom_eq _ _

theorem withoutMark_append {cs : List Char} (h : cs ≠ []) (ds : List Char) :
    withoutMark (cs ++ ds) = withoutMark cs ++ ds := by
  obtain ⟨c, cs, rfl⟩ := List.exists_cons_of_ne_nil h
  by_cases hc : c = '\ufeff'
  · subst hc
    rfl
  · have hother : ∀ es, withoutMark (c :: es) = c :: es := by
      intro es
      unfold withoutMark
      split
      · next heq =>
        cases heq
        exact absurd rfl hc
      · rfl
    rw [List.cons_append, hother, hother, List.cons_append]

/-! ## A text in two parts -/

/-- The lexemes that end in a text, and the mode behind it; none if there is a fault. -/
def Mode.cut (m : Mode) : List Char → Option (List Lexeme × Mode)
  | [] => some ([], m)
  | c :: cs =>
    match m.move c with
    | .stay m => m.cut cs
    | .endText raw => (Mode.angle.cut cs).map fun x => (.text raw :: x.1, x.2)
    | .endWith x => ((Mode.data []).cut cs).map fun y => (x :: y.1, y.2)
    | .skip => (Mode.data []).cut cs
    | .fail _ => none

/-- The lexemes of a text go on where its first part was cut. -/
theorem unplaced_lexFrom_append {m m' : Mode} {cs : List Char} {xs : List Lexeme}
    (h : m.cut cs = some (xs, m')) (start position : Nat) (ds : List Char) :
    unplaced (lexFrom m start position (cs ++ ds)) = xs ++ unplaced (lexFrom m' 0 0 ds) := by
  induction cs generalizing m xs start position with
  | nil =>
    cases h
    exact unplaced_lexFrom _ _ _ _ _ ds
  | cons c cs ih =>
    rw [List.cons_append, lexFrom]
    rw [Mode.cut] at h
    cases hmove : m.move c with
    | stay m =>
      rw [hmove] at h
      exact ih h _ _
    | endText raw =>
      rw [hmove] at h
      obtain ⟨⟨xs, _⟩, hcut, ⟨⟩⟩ := Option.map_eq_some_iff.1 h
      exact congrArg (Lexeme.text raw :: ·) (ih hcut _ _)
    | endWith x =>
      rw [hmove] at h
      obtain ⟨⟨xs, _⟩, hcut, ⟨⟩⟩ := Option.map_eq_some_iff.1 h
      exact congrArg (x :: ·) (ih hcut _ _)
    | skip =>
      rw [hmove] at h
      exact ih h _ _
    | fail e =>
      rw [hmove] at h
      cases h

theorem Mode.cut_append {m m' : Mode} {cs : List Char} {xs : List Lexeme}
    (h : m.cut cs = some (xs, m')) (ds : List Char) :
    m.cut (cs ++ ds) = (m'.cut ds).map fun y => (xs ++ y.1, y.2) := by
  induction cs generalizing m xs with
  | nil =>
    cases h
    simp
  | cons c cs ih =>
    rw [Mode.cut] at h
    rw [List.cons_append, Mode.cut]
    cases hmove : m.move c with
    | stay m =>
      rw [hmove] at h
      exact ih h
    | endText raw =>
      rw [hmove] at h
      obtain ⟨⟨xs, _⟩, hcut, ⟨⟩⟩ := Option.map_eq_some_iff.1 h
      simp [ih hcut, Function.comp_def]
    | endWith x =>
      rw [hmove] at h
      obtain ⟨⟨xs, _⟩, hcut, ⟨⟩⟩ := Option.map_eq_some_iff.1 h
      simp [ih hcut, Function.comp_def]
    | skip =>
      rw [hmove] at h
      exact ih h
    | fail e =>
      rw [hmove] at h
      cases h

/-- The names of the elements that are open behind an event, innermost first. -/
def Event.nest (opened : List (List Char)) : Event → List (List Char)
  | start tag => tag.name :: opened
  | finish _ => opened.tail
  | _ => opened

def Event.isFault : Event → Bool
  | fault _ => true
  | _ => false

def Event.isData : Event → Bool
  | text _ | cdata _ => true
  | _ => false

/-- The events of lexemes go on inside the elements that the first of them leave open. -/
theorem eventsOf_append {opened : List (List Char)} {xs : List Lexeme}
    (h : ∀ e ∈ eventsOf opened xs, e.isFault = false) (outer : List (List Char))
    (ys : List Lexeme) :
    eventsOf (opened ++ outer) (xs ++ ys) =
      eventsOf opened xs ++
        eventsOf ((eventsOf opened xs).foldl Event.nest opened ++ outer) ys := by
  induction xs generalizing opened with
  | nil => rfl
  | cons x xs ih =>
    cases x with
    | text raw =>
      exact congrArg (Event.text raw :: ·) (ih fun e he => h e (List.mem_cons_of_mem _ he))
    | cdata content =>
      exact congrArg (Event.cdata content :: ·) (ih fun e he => h e (List.mem_cons_of_mem _ he))
    | fault e => exact absurd (h (.fault e) List.mem_cons_self) (by simp [Event.isFault])
    | tag content =>
      by_cases hslash : content.getLast? = some '/'
      · rw [eventsOf_empty hslash] at h ⊢
        rw [List.cons_append, eventsOf_empty hslash, List.cons_append,
          ih fun e he => h e (List.mem_cons_of_mem _ he)]
        rfl
      · rw [eventsOf_start hslash] at h ⊢
        rw [List.cons_append, eventsOf_start hslash, List.cons_append, ← List.cons_append,
          ih fun e he => h e (List.mem_cons_of_mem _ he)]
        rfl
    | close content =>
      cases opened with
      | nil => exact absurd (h (.fault _) List.mem_cons_self) (by simp [Event.isFault])
      | cons top rest =>
        by_cases hname : closingName content = top
        · rw [eventsOf_finish hname] at h ⊢
          rw [List.cons_append, List.cons_append, eventsOf_finish hname, List.cons_append,
            ih fun e he => h e (List.mem_cons_of_mem _ he)]
          rfl
        · rw [eventsOf_mismatch hname] at h
          exact absurd (h _ List.mem_cons_self) (by simp [Event.isFault])

/-! ## Complete text -/

/-- A text that leaves no construct open, with the events it has where no element is open. -/
structure Stands (cs : List Char) (es : List Event) : Prop where
  cut : ∃ xs, (Mode.data []).cut cs = some (xs, .data []) ∧ eventsOf [] xs = es
  sound : ∀ e ∈ es, e.isFault = false

/-- Complete text has its events in front of those of the text behind it, wherever it stands. -/
theorem Stands.eventsIn_append {cs : List Char} {es : List Event} (h : Stands cs es)
    (opened : List (List Char)) (ds : List Char) :
    eventsIn opened (cs ++ ds) = es ++ eventsIn (es.foldl Event.nest [] ++ opened) ds := by
  obtain ⟨xs, hcut, rfl⟩ := h.cut
  unfold eventsIn lexemes
  rw [unplaced_lexFrom_append hcut, ← List.nil_append opened, eventsOf_append h.sound]
  simp

/-- Well-formed content: character data, empty elements, and elements around such content. -/
inductive Balanced : List Event → Prop
  | nil : Balanced []
  | text (raw : List Char) : Balanced [.text raw]
  | cdata (content : List Char) : Balanced [.cdata content]
  | empty (tag : Tag) : Balanced [.empty tag]
  | element (tag : Tag) {es : List Event} (content : Balanced es) :
    Balanced (.start tag :: (es ++ [.finish tag.name]))
  | append {es fs : List Event} (first : Balanced es) (second : Balanced fs) :
    Balanced (es ++ fs)

theorem Balanced.foldl_nest {es : List Event} (h : Balanced es) (opened : List (List Char)) :
    es.foldl Event.nest opened = opened := by
  induction h generalizing opened with
  | nil => rfl
  | text raw => rfl
  | cdata content => rfl
  | empty tag => rfl
  | element tag _ ih =>
    rw [List.foldl_cons, List.foldl_append, ih]
    rfl
  | append _ _ ih₁ ih₂ => rw [List.foldl_append, ih₁, ih₂]

theorem balanced_texts (raws : List (List Char)) : Balanced (raws.map .text) := by
  induction raws with
  | nil => exact .nil
  | cons raw raws ih => exact .append (.text raw) ih

/-- Complete text with well-formed content leaves open what was open in front of it. -/
theorem Stands.eventsIn_balanced {cs : List Char} {es : List Event} (h : Stands cs es)
    (hbalanced : Balanced es) (opened : List (List Char)) (ds : List Char) :
    eventsIn opened (cs ++ ds) = es ++ eventsIn opened ds := by
  rw [h.eventsIn_append, hbalanced.foldl_nest, List.nil_append]

theorem Stands.append {cs ds : List Char} {es fs : List Event} (h : Stands cs es)
    (hbalanced : Balanced es) (h' : Stands ds fs) : Stands (cs ++ ds) (es ++ fs) where
  cut := by
    obtain ⟨xs, hxs, rfl⟩ := h.cut
    obtain ⟨ys, hys, rfl⟩ := h'.cut
    refine ⟨xs ++ ys, ?_, ?_⟩
    · rw [Mode.cut_append hxs, hys]
      rfl
    · have happend := eventsOf_append h.sound [] ys
      rwa [hbalanced.foldl_nest] at happend
  sound := by
    intro e he
    rcases List.mem_append.1 he with he | he
    · exact h.sound e he
    · exact h'.sound e he

end AudioProject.Markup
