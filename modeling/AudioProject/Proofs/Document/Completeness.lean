import AudioProject.Proofs.Document.Around
import Mathlib.Data.List.Induction

/-
  How complete the texts are that are read as documents. The state has one flag for a root that was
  seen, one for a root that was closed, and one open object at most. So each object of a document
  is an element behind the tag of a root and in no other object, and each such element is an
  object of the document (`Carries`). What the state has no field for is not checked: whether
  another root comes, whether a root is outermost, whether an object stands behind the end of the
  root, whether other elements are open at the end of the text (`Unspoiled`).
-/

namespace AudioProject.Markup

/-- An event that closes a root: its end tag, or its empty element. -/
def Event.endsRoot : Event → Bool
  | empty tag => String.ofList tag.name = "objects"
  | finish name => String.ofList name = "objects"
  | _ => false

/-- The id and the class in a tag for an object. -/
def Tag.header? (tag : Tag) : Option (ObjectId × ObjectClass) :=
  match tag.text? "class", tag.text? "id" with
  | some label, some text =>
    match ObjectId.ofString? text with
    | .ok id => some (id, .ofName label)
    | .error _ => none
  | _, _ => none

theorem Tag.header?_eq {tag : Tag} {label text : String} {id : ObjectId}
    (hclass : tag.text? "class" = some label) (hid : tag.text? "id" = some text)
    (hvalid : ObjectId.ofString? text = .ok id) :
    tag.header? = some (id, .ofName label) := by
  simp [Tag.header?, hclass, hid, hvalid]

def Event.header? : Event → Option (ObjectId × ObjectClass)
  | start tag | empty tag => tag.header?
  | _ => none

end AudioProject.Markup

namespace AudioProject.Document

open Markup Text

/-! ## What is read and what is asked for -/

/-- The headers of the object elements of a text, in order. -/
def headers (es : List Event) : List (Option (ObjectId × ObjectClass)) :=
  (es.filter (Event.isTag "object")).map Event.header?

/-- What the text of every document has: an object element for each object, outside of other
objects and behind the tag of a root, and no root that was opened and not closed behind the last
one that was closed. -/
structure Carries (es : List Event) (d : Document) : Prop where
  objects : headers es = d.objects.map fun o => some (o.id, o.objectClass)
  apart : ∀ {front e}, front ++ [e] <+: es → e.isTag "object" = true →
    "object" ∉ openIn front ∧ ∃ root ∈ front, root.isTag "objects" = true
  ended : "object" ∉ openIn es
  closed : ∃ front e back, es = front ++ e :: back ∧ e.endsRoot = true ∧
    ∀ root ∈ back, root.isTag "objects" = false

/-- A text that is one root with its objects in it, and nothing open at its end. -/
structure Complete (es : List Event) (d : Document) : Prop where
  root : ∃ front e back, es = front ++ e :: back ∧ e.isTag "objects" = true ∧
    openIn front = [] ∧ ∀ other ∈ front ++ back, other.isTag "objects" = false
  ended : openIn es = []
  objects : headers es = d.objects.map fun o => some (o.id, o.objectClass)
  inside : ∀ {front e}, front ++ [e] <+: es → e.isTag "object" = true →
    "objects" ∈ openIn front ∧ "object" ∉ openIn front

/-- A text without the flaws that nothing checks for: a root that is not the first one or not
outermost, an object behind the end of a root, another element that is open at the end. -/
structure Unspoiled (es : List Event) : Prop where
  sole : ∀ {front e}, front ++ [e] <+: es → e.isTag "objects" = true →
    openIn front = [] ∧ ∀ other ∈ front, other.isTag "objects" = false
  nothingBehind : ∀ {front e}, front ++ [e] <+: es → e.isTag "object" = true →
    ∀ root ∈ front, root.endsRoot = false
  others : ∀ name ∈ openIn es, name = "objects"

namespace Reading

/-! ## Roots -/

theorem Moves.sawRoot {r r' : Reading} {e : Event} (h : r.Moves e r') :
    r'.sawRoot = (r.sawRoot || e.isTag "objects") := by
  have hopens : ∀ {tag empty}, Opens r tag empty r' →
      r'.sawRoot = (r.sawRoot || decide (String.ofList tag.name = "objects")) := by
    intro tag empty hopen
    cases hopen with
    | root name => simp [name]
    | emptyValue name =>
      rw [endValue_eq]
      simp [name]
    | passed hpasses => simp [hpasses.notRoot]
    | value name | destination name => simp [name, collect]
    | object name | emptyObject name | property name | relationship name
    | emptyRelationship name => simp [name]
  cases e with
  | start tag => exact hopens h
  | empty tag => exact hopens h
  | finish name =>
    cases h with
    | value named =>
      rw [endValue_eq]
      simp [Event.isTag]
    | _ => simp [Event.isTag, take]
  | text | cdata =>
    obtain ⟨cs, rfl, -⟩ := h.of_data rfl
    simp [Event.isTag]
  | fault e => exact h.elim

/-- The root is closed by an event that closes a root, and open again behind any other tag for
one. -/
theorem Moves.closedRoot {r r' : Reading} {e : Event} (h : r.Moves e r') :
    r'.closedRoot = (e.endsRoot || r.closedRoot && !e.isTag "objects") := by
  cases e with
  | start tag =>
    cases h with
    | root name => simp [Event.endsRoot, Event.isTag, name]
    | object name | property name | relationship name | value name | destination name =>
      simp [Event.endsRoot, Event.isTag, name, collect]
    | emptyObject _ _ _ _ _ _ bare | emptyRelationship _ _ _ bare | emptyValue _ _ bare =>
      cases bare
    | passed hpasses => simp [Event.endsRoot, Event.isTag, hpasses.notRoot]
  | empty tag =>
    cases h with
    | root name => simp [Event.endsRoot, name]
    | emptyObject name | property name | emptyRelationship name =>
      simp [Event.endsRoot, Event.isTag, name]
    | emptyValue name =>
      rw [endValue_eq]
      simp [Event.endsRoot, Event.isTag, name]
    | object _ _ _ _ _ _ full | relationship _ _ _ full | value _ _ full
    | destination _ _ full => cases full
    | passed hpasses => simp [Event.endsRoot, Event.isTag, hpasses.notRoot]
  | finish name =>
    cases h with
    | value named =>
      rw [endValue_eq]
      simp [Event.endsRoot, Event.isTag, named]
    | root named => simp [Event.endsRoot, named]
    | destination named | property named | relationship named | object named =>
      simp [Event.endsRoot, Event.isTag, named, take]
    | passed notRoot => simp [Event.endsRoot, Event.isTag, notRoot]
  | text | cdata =>
    obtain ⟨cs, rfl, -⟩ := h.of_data rfl
    simp [Event.endsRoot, Event.isTag]
  | fault e => exact h.elim

theorem Runs.sawRoot {r r' : Reading} {es : List Event} (h : r.Runs es r') :
    r'.sawRoot = (r.sawRoot || es.any (Event.isTag "objects")) := by
  induction es generalizing r with
  | nil =>
    cases h
    simp
  | cons e es ih =>
    obtain ⟨r₁, hmove, hrun⟩ := h
    rw [ih hrun, hmove.sawRoot, Bool.or_assoc, List.any_cons]

/-- Where the root is closed, an event closed it and no other root began. -/
theorem Runs.closedRoot {r : Reading} {es : List Event} (h : Reading.Runs {} es r)
    (hclosed : r.closedRoot = true) :
    ∃ front e back, es = front ++ e :: back ∧ e.endsRoot = true ∧
      ∀ root ∈ back, root.isTag "objects" = false := by
  induction es using List.reverseRecOn generalizing r with
  | nil =>
    cases h
    cases hclosed
  | append_singleton es e ih =>
    obtain ⟨r₁, hrun, r₂, hmove, rfl⟩ := runs_append_iff.1 h
    by_cases hends : e.endsRoot = true
    · exact ⟨es, e, [], rfl, hends, by simp⟩
    · have hkeeps := hmove.closedRoot
      rw [hclosed, eq_false_of_ne_true hends, Bool.false_or] at hkeeps
      obtain ⟨hbefore, hother⟩ := Bool.and_eq_true_iff.1 hkeeps.symm
      obtain ⟨front, root, back, rfl, hroot, hback⟩ := ih hrun hbefore
      refine ⟨front, root, back ++ [e], by simp, hroot, fun other hmem => ?_⟩
      rcases List.mem_append.1 hmem with hmem | hmem
      · exact hback other hmem
      · rw [List.mem_singleton.1 hmem]
        simpa using hother

/-! ## Objects -/

/-- The headers of the objects that were begun. -/
def headers (r : Reading) : List (Option (ObjectId × ObjectClass)) :=
  (r.objects ++ r.current.toList).map fun o => some (o.id, o.objectClass)

theorem headers_endValue (r : Reading) : r.endValue.headers = r.headers := by
  rw [endValue_eq]
  unfold headers
  dsimp only
  cases r.current with
  | none => rfl
  | some o =>
    cases r.property with
    | none => rfl
    | some name => simp [Object.setProperty]

theorem headers_take (r : Reading) (id : ObjectId) : (r.take id).headers = r.headers := by
  unfold headers take
  dsimp only
  cases r.current with
  | none => rfl
  | some o =>
    cases r.relationship with
    | none => rfl
    | some label => simp [Object.pushEdge, Object.setEdge]

theorem Opens.headers {r r' : Reading} {tag : Tag} {empty : Bool} (h : Opens r tag empty r') :
    r'.headers = r.headers ++
      if String.ofList tag.name = "object" then [tag.header?] else [] := by
  cases h with
  | object name inside free hclass hid valid | emptyObject name inside free hclass hid valid =>
    rw [if_pos name, Tag.header?_eq hclass hid valid]
    simp [Reading.headers, free]
  | relationship name inside | emptyRelationship name inside =>
    rw [if_neg (by simp [name])]
    simp [Reading.headers, inside, Object.setEdge]
  | emptyValue name => rw [if_neg (by simp [name]), headers_endValue, List.append_nil]
  | root name | property name =>
    rw [if_neg (by simp [name]), List.append_nil]
    rfl
  | value name | destination name =>
    rw [if_neg (by simp [name]), List.append_nil]
    rfl
  | passed hpasses => rw [if_neg hpasses.notObject, List.append_nil]

theorem Moves.headers {r r' : Reading} {e : Event} (h : r.Moves e r') :
    r'.headers = r.headers ++ Document.headers [e] := by
  cases e with
  | start tag =>
    rw [Opens.headers h]
    by_cases name : String.ofList tag.name = "object" <;>
      simp [Document.headers, Event.isTag, Event.header?, name]
  | empty tag =>
    rw [Opens.headers h]
    by_cases name : String.ofList tag.name = "object" <;>
      simp [Document.headers, Event.isTag, Event.header?, name]
  | finish name =>
    have hnone : Document.headers [.finish name] = [] := rfl
    rw [hnone, List.append_nil]
    cases h with
    | value => exact headers_endValue r
    | destination => exact headers_take r _
    | object named inside => simp [Reading.headers, inside]
    | _ => rfl
  | text | cdata =>
    obtain ⟨cs, rfl, -⟩ := h.of_data rfl
    exact (List.append_nil _).symm
  | fault e => exact h.elim

theorem Runs.headers {r r' : Reading} {es : List Event} (h : r.Runs es r') :
    r'.headers = r.headers ++ Document.headers es := by
  induction es generalizing r with
  | nil =>
    cases h
    exact (List.append_nil _).symm
  | cons e es ih =>
    obtain ⟨r₁, hmove, hrun⟩ := h
    have hsplit : Document.headers (e :: es) = Document.headers [e] ++ Document.headers es := by
      rw [Document.headers, ← List.singleton_append, List.filter_append, List.map_append]
      rfl
    rw [ih hrun, hmove.headers, List.append_assoc, hsplit]

/-- An object begins behind the tag of a root, where no object is open. -/
theorem Moves.of_object {r r' : Reading} {e : Event} (h : r.Moves e r')
    (hobject : e.isTag "object" = true) : r.sawRoot = true ∧ r.current = none := by
  have hopens : ∀ {tag empty}, String.ofList tag.name = "object" → Opens r tag empty r' →
      r.sawRoot = true ∧ r.current = none := by
    intro tag empty hname hopen
    have hopen := hopen.openTag 0
    unfold openTag at hopen
    rw [hname] at hopen
    obtain ⟨hroot, hfree, -⟩ := openObject_eq_ok_iff.1 hopen
    exact ⟨hroot, hfree⟩
  cases e with
  | start tag => exact hopens (of_decide_eq_true hobject) h
  | empty tag => exact hopens (of_decide_eq_true hobject) h
  | _ => cases hobject

end Reading

/-! ## Texts -/

theorem Reading.Runs.carries {r : Reading} {es : List Event} {d : Document}
    (h : Reading.Runs {} es r) (hnests : Nests [] es) (hd : r.Completes d) : Carries es d where
  objects := by
    have hheaders := h.headers
    simp only [Reading.headers, hd.objects, hd.closed] at hheaders
    simpa using hheaders.symm
  apart := by
    rintro front e ⟨back, rfl⟩ hobject
    obtain ⟨r₁, hfront, hback⟩ := Reading.runs_append_iff.1 h
    obtain ⟨r₂, hrun, r₃, hmove, rfl⟩ := Reading.runs_append_iff.1 hfront
    obtain ⟨hroot, hfree⟩ := hmove.of_object hobject
    have hwithin := hrun.within_openIn (nests_append_iff.1 (nests_append_iff.1 hnests).1).1
    refine ⟨fun hmem => ?_, ?_⟩
    · have hsome := hwithin.isSome_current hmem
      rw [hfree] at hsome
      cases hsome
    · rw [hrun.sawRoot] at hroot
      exact List.any_eq_true.1 hroot
  ended hmem := by
    have hsome := (h.within_openIn hnests).isSome_current hmem
    rw [hd.closed] at hsome
    cases hsome
  closed := h.closedRoot hd.closedRoot

section Single

variable {es : List Event} {d : Document}

theorem countP_starts_le (name : String) (es : List Event) :
    es.countP (Event.starts name) ≤ es.countP (Event.isTag name) := by
  refine List.countP_mono_left fun e _ hstart => ?_
  cases e with
  | start tag => exact hstart
  | _ => cases hstart

/-- Where one root can be at most, an event that closes a root leaves none open. -/
theorem objects_notMem_openIn (hnests : Nests [] es)
    (hsingle : es.countP (Event.isTag "objects") ≤ 1) {e : Event} (he : e ∈ es)
    (hends : e.endsRoot = true) : "objects" ∉ openIn es := by
  have hfew : es.countP (Event.starts "objects") ≤ es.countP (Event.ends "objects") := by
    cases e with
    | finish name =>
      have hstarts := countP_starts_le "objects" es
      have hpos : 0 < es.countP (Event.ends "objects") := List.countP_pos_iff.2 ⟨_, he, hends⟩
      omega
    | empty tag =>
      obtain ⟨front, back, rfl⟩ := List.append_of_mem he
      have hfront := countP_starts_le "objects" front
      have hback := countP_starts_le "objects" back
      have htag : Event.isTag "objects" (.empty tag) = true := hends
      simp only [List.countP_append, List.countP_cons, htag, Event.starts, if_true,
        Bool.false_eq_true, if_false] at hsingle ⊢
      omega
    | _ => cases hends
  have hcount := hnests.count_openIn "objects"
  exact List.count_eq_zero.1 (by omega)

/-- Where a root began and none was closed, one is open. -/
theorem objects_mem_openIn (hnests : Nests [] es) {root : Event} (hroot : root ∈ es)
    (htag : root.isTag "objects" = true) (hopen : ∀ e ∈ es, e.endsRoot = false) :
    "objects" ∈ openIn es := by
  have hstart : root.starts "objects" = true := by
    cases root with
    | start tag => exact htag
    | empty tag => cases htag.symm.trans (hopen _ hroot)
    | _ => cases htag
  have hstarts : 0 < es.countP (Event.starts "objects") :=
    List.countP_pos_iff.2 ⟨root, hroot, hstart⟩
  have hends : es.countP (Event.ends "objects") = 0 := by
    refine List.countP_eq_zero.2 fun e he hend => ?_
    cases e with
    | finish name => cases hend.symm.trans (hopen _ he)
    | _ => cases hend
  have hcount := hnests.count_openIn "objects"
  exact List.count_pos_iff.1 (by omega)

/-- An event that closes a root closes one that began. -/
theorem exists_root_of_endsRoot (hnests : Nests [] es) {e : Event} (he : e ∈ es)
    (hends : e.endsRoot = true) : ∃ root ∈ es, root.isTag "objects" = true := by
  cases e with
  | empty tag => exact ⟨_, he, hends⟩
  | finish name =>
    have hpos : 0 < es.countP (Event.ends "objects") := List.countP_pos_iff.2 ⟨_, he, hends⟩
    have hcount := hnests.count_openIn "objects"
    have hstarts := countP_starts_le "objects" es
    exact List.countP_pos_iff.1 (by omega)
  | _ => cases hends

theorem Unspoiled.exists_root (h : Unspoiled es) {root : Event} (hroot : root ∈ es)
    (htag : root.isTag "objects" = true) :
    ∃ front e back, es = front ++ e :: back ∧ e.isTag "objects" = true ∧ openIn front = [] ∧
      ∀ other ∈ front ++ back, other.isTag "objects" = false := by
  obtain ⟨front, back, rfl⟩ := List.append_of_mem hroot
  obtain ⟨hopen, hfront⟩ := h.sole (⟨back, by simp⟩ : front ++ [root] <+: _) htag
  refine ⟨front, root, back, rfl, htag, hopen, fun other hother => ?_⟩
  rcases List.mem_append.1 hother with hother | hother
  · exact hfront other hother
  · obtain ⟨between, behind, rfl⟩ := List.append_of_mem hother
    by_contra hsecond
    have hstart : front ++ root :: between ++ [other] <+:
        front ++ root :: (between ++ other :: behind) := ⟨behind, by simp⟩
    have hbetween := (h.sole hstart (eq_true_of_ne_false hsecond)).2 root (by simp)
    rw [htag] at hbetween
    cases hbetween

theorem countP_root_le {front back : List Event} {e : Event}
    (hother : ∀ other ∈ front ++ back, other.isTag "objects" = false) :
    (front ++ e :: back).countP (Event.isTag "objects") ≤ 1 := by
  have hnone : (front ++ back).countP (Event.isTag "objects") = 0 :=
    List.countP_eq_zero.2 fun other hmem => by simp [hother other hmem]
  rw [List.countP_append] at hnone
  rw [List.countP_append, List.countP_cons]
  split <;> omega

theorem Unspoiled.complete (h : Unspoiled es) (hnests : Nests [] es) (hd : Carries es d) :
    Complete es d := by
  obtain ⟨front, ending, back, hes, hends, -⟩ := hd.closed
  have hending : ending ∈ es := by simp [hes]
  obtain ⟨root, hmem, htag⟩ := exists_root_of_endsRoot hnests hending hends
  have hroot := h.exists_root hmem htag
  refine ⟨hroot, ?_, hd.objects, fun hfront hobject => ?_⟩
  · obtain ⟨before, e, behind, rfl, -, -, hother⟩ := hroot
    have hclosed := objects_notMem_openIn hnests (countP_root_le hother) hending hends
    exact List.eq_nil_iff_forall_not_mem.2 fun name hname =>
      hclosed (h.others name hname ▸ hname)
  · obtain ⟨hfree, first, hfirst, htag⟩ := hd.apart hfront hobject
    refine ⟨objects_mem_openIn ?_ hfirst htag (h.nothingBehind hfront hobject), hfree⟩
    obtain ⟨behind, rfl⟩ := hfront
    exact (nests_append_iff.1 (nests_append_iff.1 hnests).1).1

theorem Complete.unspoiled (h : Complete es d) (hnests : Nests [] es) : Unspoiled es := by
  obtain ⟨front, root, back, rfl, htag, hopen, hother⟩ := h.root
  refine ⟨?_, ?_, by simp [h.ended]⟩
  · rintro front' e ⟨back', hes⟩ he
    rw [List.append_assoc, List.singleton_append] at hes
    obtain ⟨between, hfront, hback⟩ | ⟨between, hfront, hback⟩ := List.append_eq_append_iff.1 hes
    · cases between with
      | nil =>
        rw [List.append_nil] at hfront
        subst hfront
        exact ⟨hopen, fun other hmem => hother other (by simp [hmem])⟩
      | cons first between =>
        obtain ⟨rfl, -⟩ := List.cons.inj hback
        rw [hother e (by simp [hfront])] at he
        cases he
    · cases between with
      | nil =>
        rw [List.append_nil] at hfront
        subst hfront
        exact ⟨hopen, fun other hmem => hother other (by simp [hmem])⟩
      | cons first between =>
        obtain ⟨-, rfl⟩ := List.cons.inj hback
        rw [hother e (by simp)] at he
        cases he
  · intro front' e hfront he other hmem
    by_contra hends
    have hbefore : front' <+: front ++ root :: back := (List.prefix_append _ _).trans hfront
    have hsingle : front'.countP (Event.isTag "objects") ≤ 1 :=
      Nat.le_trans hbefore.sublist.countP_le (countP_root_le hother)
    obtain ⟨behind, hes⟩ := hbefore
    rw [← hes] at hnests
    exact objects_notMem_openIn (nests_append_iff.1 hnests).1 hsingle hmem
      (eq_true_of_ne_false hends) (h.inside hfront he).1

end Single

/-! ## Objects in front of every root -/

namespace Reading

theorem step_objectOutsideRoot {r : Reading} (hroot : r.sawRoot = false) {e : Event}
    (hobject : e.isTag "object" = true) (position : Nat) :
    r.step (position, e) = .error (.malformed position .objectOutsideRoot) := by
  have hopens : ∀ {tag empty}, String.ofList tag.name = "object" →
      r.openTag tag empty position = .error (.malformed position .objectOutsideRoot) := by
    intro tag empty hname
    unfold openTag
    rw [hname]
    simp [openObject, hroot]
  cases e with
  | start tag => exact hopens (of_decide_eq_true hobject)
  | empty tag => exact hopens (of_decide_eq_true hobject)
  | _ => cases hobject

end Reading

/-- Reading ends with an error at an object that no tag of a root stands in front of. -/
theorem parse_objectOutsideRoot {s : String} {front back : List (Nat × Event)} {position : Nat}
    {e : Event} (hevents : events s.toList = front ++ (position, e) :: back)
    (hobject : e.isTag "object" = true) (hroot : ∀ x ∈ front, x.2.isTag "objects" = false)
    {r : Reading} (hfront : Reading.run {} front = .ok r) :
    parse s = .error (.malformed position .objectOutsideRoot) := by
  have hsaw : r.sawRoot = false := by
    rw [(Reading.run_eq_ok_iff.1 hfront).sawRoot]
    simpa [unplaced] using hroot
  unfold parse ofEvents?
  rw [hevents, Reading.run_append hfront, Reading.run,
    Reading.step_objectOutsideRoot hsaw hobject]

/-- Of a text that is read as a document, each object element is one of its objects, in the same
order, and stands behind the tag of a root and outside of other objects (`Carries`). The text is a
single root with these objects in it, and nothing open at its end, exactly if it has none of the
flaws that nothing checks for. An object in front of every root is an error at the byte where it
stands, in any text. -/
theorem read_texts_are_complete (s : String) :
    (∀ d, parse s = .ok d →
        Carries (stream s) d ∧ (Complete (stream s) d ↔ Unspoiled (stream s))) ∧
      ∀ (front back : List (Nat × Event)) (position : Nat) (e : Event),
        events s.toList = front ++ (position, e) :: back → e.isTag "object" = true →
        (∀ x ∈ front, x.2.isTag "objects" = false) → (∃ r, Reading.run {} front = .ok r) →
        parse s = .error (.malformed position .objectOutsideRoot) := by
  refine ⟨fun d hd => ?_, fun front back position e hevents hobject hroot hfront => ?_⟩
  · obtain ⟨r, hrun, hcomplete⟩ := parse_eq_ok_iff.1 hd
    have hnests : Nests [] (stream s) := nests_eventsIn [] _
    have hcarries : Carries (stream s) d := hrun.carries hnests hcomplete
    exact ⟨hcarries, fun h => h.unspoiled hnests, fun h => h.complete hnests hcarries⟩
  · obtain ⟨r, hrun⟩ := hfront
    exact parse_objectOutsideRoot hevents hobject hroot hrun

/-! ## Samples -/

def sampleRoot : Tag := Tag.ofContent "objects serializationModel='Studio.2.1.0'".toList

def sampleTag : Tag := Tag.ofContent "object class='Event' id='viola'".toList

def sampleDocument : Document where
  model := ⟨"Studio.2.1.0", by decide⟩
  objects := [{ id := ⟨"viola", by decide⟩, objectClass := .event }]

def bareDocument : Document where
  model := ⟨"Studio.2.1.0", by decide⟩
  objects := []

/-- One root with one object in it. -/
def objectInRoot : String :=
  "<objects serializationModel='Studio.2.1.0'><object class='Event' id='viola'/></objects>"

theorem parse_objectInRoot : parse objectInRoot = .ok sampleDocument := by
  unfold parse objectInRoot
  rw [String.toList_ofList]
  decide

theorem stream_objectInRoot : stream objectInRoot =
    [.start sampleRoot, .empty sampleTag, .finish "objects".toList] := by
  unfold stream objectInRoot sampleRoot sampleTag
  rw [String.toList_ofList, String.toList_ofList, String.toList_ofList]
  decide

theorem unspoiled_objectInRoot : Unspoiled (stream objectInRoot) := by
  rw [stream_objectInRoot]
  refine ⟨fun {front e} hfront he => ?_, fun {front e} hfront he => ?_, by decide⟩
  · rcases front with _ | ⟨a, _ | ⟨b, _ | ⟨c, front⟩⟩⟩
    · exact ⟨rfl, by simp⟩
    · obtain ⟨rfl, rfl⟩ : a = .start sampleRoot ∧ e = .empty sampleTag := by
        simpa using hfront
      revert he
      decide
    · obtain ⟨rfl, rfl, rfl⟩ :
          a = .start sampleRoot ∧ b = .empty sampleTag ∧ e = .finish "objects".toList := by
        simpa using hfront
      cases he
    · simp at hfront
  · rcases front with _ | ⟨a, _ | ⟨b, _ | ⟨c, front⟩⟩⟩
    · simp
    · obtain ⟨rfl, rfl⟩ : a = .start sampleRoot ∧ e = .empty sampleTag := by
        simpa using hfront
      simp [Event.endsRoot]
    · obtain ⟨rfl, rfl, rfl⟩ :
          a = .start sampleRoot ∧ b = .empty sampleTag ∧ e = .finish "objects".toList := by
        simpa using hfront
      cases he
    · simp at hfront

/-- An object in front of the root. -/
def objectFirst : String :=
  "<foo/><object class='Event' id='viola'/><objects serializationModel='Studio.2.1.0'/>"

theorem events_objectFirst : events objectFirst.toList =
    [(0, .empty (Tag.ofContent "foo".toList))] ++
      (6, .empty sampleTag) :: [(40, .empty sampleRoot)] := by
  unfold objectFirst sampleRoot sampleTag
  rw [String.toList_ofList, String.toList_ofList, String.toList_ofList, String.toList_ofList]
  decide

theorem read_texts_are_complete_sample :
    parse objectInRoot = .ok sampleDocument ∧ Unspoiled (stream objectInRoot) ∧
      Complete (stream objectInRoot) sampleDocument ∧
      events objectFirst.toList = [(0, .empty (Tag.ofContent "foo".toList))] ++
        (6, .empty sampleTag) :: [(40, .empty sampleRoot)] ∧
      parse objectFirst = .error (.malformed 6 .objectOutsideRoot) :=
  ⟨parse_objectInRoot, unspoiled_objectInRoot,
    (((read_texts_are_complete objectInRoot).1 _ parse_objectInRoot).2.2 unspoiled_objectInRoot),
    events_objectFirst,
    (read_texts_are_complete objectFirst).2 _ _ _ _ events_objectFirst (by decide +kernel)
      (by decide +kernel) ⟨_, rfl⟩⟩

/-- An object behind the end of the root. -/
def objectBehind : String :=
  "<objects serializationModel='Studio.2.1.0'></objects><object class='Event' id='viola'/>"

def rootTwice : String :=
  "<objects serializationModel='Studio.2.1.0'/><objects serializationModel='Studio.2.1.0'/>"

def rootInside : String := "<foo><objects serializationModel='Studio.2.1.0'/></foo>"

def otherOpen : String := "<objects serializationModel='Studio.2.1.0'/><foo>"

theorem incomplete_texts_are_read :
    (parse objectBehind = .ok sampleDocument ∧ ¬ Complete (stream objectBehind) sampleDocument) ∧
      (parse rootTwice = .ok bareDocument ∧ ¬ Complete (stream rootTwice) bareDocument) ∧
      (parse rootInside = .ok bareDocument ∧ ¬ Complete (stream rootInside) bareDocument) ∧
      (parse otherOpen = .ok bareDocument ∧ ¬ Complete (stream otherOpen) bareDocument) := by
  have hbehind : stream objectBehind =
      [.start sampleRoot, .finish "objects".toList] ++ [.empty sampleTag] := by
    unfold stream objectBehind sampleRoot sampleTag
    rw [String.toList_ofList, String.toList_ofList, String.toList_ofList]
    decide +kernel
  have htwice : stream rootTwice = [.empty sampleRoot] ++ [.empty sampleRoot] := by
    unfold stream rootTwice sampleRoot
    rw [String.toList_ofList, String.toList_ofList]
    decide +kernel
  have hinside : stream rootInside =
      [.start (Tag.ofContent "foo".toList)] ++ [.empty sampleRoot] ++ [.finish "foo".toList] := by
    unfold stream rootInside sampleRoot
    rw [String.toList_ofList, String.toList_ofList]
    decide +kernel
  have hopen : stream otherOpen = [.empty sampleRoot, .start (Tag.ofContent "foo".toList)] := by
    unfold stream otherOpen sampleRoot
    rw [String.toList_ofList, String.toList_ofList]
    decide +kernel
  have hroot : Event.isTag "objects" (.empty sampleRoot) = true := by decide +kernel
  refine ⟨⟨?_, fun h => ?_⟩, ⟨?_, fun h => ?_⟩, ⟨?_, fun h => ?_⟩, ?_, fun h => ?_⟩
  · unfold parse objectBehind
    rw [String.toList_ofList]
    decide +kernel
  · have hmem := (h.inside (⟨[], by rw [List.append_nil, hbehind]⟩) (by decide +kernel)).1
    cases hmem
  · unfold parse rootTwice
    rw [String.toList_ofList]
    decide +kernel
  · have hunspoiled := h.unspoiled (nests_eventsIn [] _)
    have hnone := (hunspoiled.sole ⟨[], by rw [List.append_nil, htwice]⟩ hroot).2 _
      List.mem_cons_self
    rw [hroot] at hnone
    cases hnone
  · unfold parse rootInside
    rw [String.toList_ofList]
    decide +kernel
  · have hfree := ((h.unspoiled (nests_eventsIn [] _)).sole (hinside ▸ List.prefix_append _ _)
      hroot).1
    cases hfree
  · unfold parse otherOpen
    rw [String.toList_ofList]
    decide +kernel
  · have hended := h.ended
    rw [hopen] at hended
    cases hended

end AudioProject.Document
