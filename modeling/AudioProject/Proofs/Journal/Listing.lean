import AudioProject.Proofs.Journal.Format
import AudioProject.Proofs.Journal.Writing
import AudioProject.Proofs.Store.Documents

/-
  What is read of journals, by what their files hold. A journal is listed as unfinished when it can
  be read and is in progress (`mem_unfinished`). So where only the journal of one operation differs
  between two trees, and the first has none, the second lists the unfinished journals of the first
  and, if it is in progress, this one (`gains_unfinished`).
-/

namespace AudioProject

open FileTree AudioProject.Path Instantiation

namespace Journal

variable {l : Layout} {base : Location} {op : String} {t t' : FileTree} {j : Journal}

/-! ## One journal -/

theorem read_eq_ok : read t l op = .ok j ↔ ∃ b s, t.read (l.journal op) = .ok b ∧
    String.fromUTF8? b = some s ∧ ofText? s = some j := by
  have hhas {b : ByteArray} (hb : t.read (l.journal op) = .ok b) :
      t.has (l.journal op) = true := by
    obtain ⟨place, hplace, hcontent⟩ := FileTree.read_eq_ok.1 hb
    exact has_of_locate hplace (node?_ne_none_of_contentAt? hcontent)
  unfold read
  constructor
  · intro h
    dsimp only at h
    split at h
    · cases hs : t.readText (l.journal op) with
      | error e =>
        rw [hs] at h
        cases h
      | ok s =>
        rw [hs] at h
        dsimp only at h
        obtain ⟨b, hb, hs⟩ := Store.readText_eq_ok.1 hs
        split at h
        · next j' hj =>
          cases h
          exact ⟨b, s, hb, hs, hj⟩
        · cases h
    · cases h
  · rintro ⟨b, s, hb, hs, hj⟩
    dsimp only
    rw [if_pos (hhas hb), Store.readText_eq_ok.2 ⟨b, hb, hs⟩]
    dsimp only
    rw [hj]

theorem Sited.read_eq_ok (hs : Sited t l base) (hop : '/' ∉ op.toList) : read t l op = .ok j ↔
    ∃ b s, Proper l.root (journalNames op) ∧ t.contentAt? (base ++ journalNames op) = some b ∧
      String.fromUTF8? b = some s ∧ ofText? s = some j := by
  rw [Journal.read_eq_ok]
  simp only [hs.read_journal hop, and_assoc]

theorem fromUTF8?_toUTF8 (s : String) : String.fromUTF8? s.toUTF8 = some s := by
  have hvalid : s.toUTF8.IsValidUTF8 := s.isValidUTF8
  rw [String.fromUTF8?, dif_pos hvalid]
  rfl

/-- What the file holds is read back, if its time stamps survive. -/
theorem Sited.read_of_filed_lasting (hs : Sited t l base) (hop : '/' ∉ op.toList)
    (hfiled : Filed t l base op (some j)) (hlasting : j.Lasting) : read t l op = .ok j :=
  Journal.read_eq_ok.2 ⟨_, _, hs.read_of_filed hop hfiled, fromUTF8?_toUTF8 _,
    ofText?_text hlasting⟩

/-- What is read is the journal that the file holds, or that there is none. -/
theorem Sited.read_of_holds (hs : Sited t l base) (hop : '/' ∉ op.toList) {was : Option Journal}
    (hholds : Holds t l base op was) (hlasting : ∀ j ∈ was, j.Lasting) :
    read t l op = was.elim (.error (.notFound op)) .ok := by
  cases was with
  | none =>
    unfold read
    dsimp only
    rw [(hs.holds_none_iff hop).1 hholds]
    rfl
  | some j =>
    exact hs.read_of_filed_lasting hop hholds.filed (hlasting j rfl)

/-! ## The list -/

/-- The journal of an operation that can be read and is in progress. -/
def pending? (t : FileTree) (l : Layout) (op : String) : Option Journal :=
  match read t l op with
  | .ok j => if j.phase.isFinished then none else some j
  | .error _ => none

theorem pending?_eq_some :
    pending? t l op = some j ↔ read t l op = .ok j ∧ j.phase.isFinished = false := by
  unfold pending?
  cases read t l op with
  | error e => simp
  | ok j' =>
    dsimp only
    by_cases hphase : j'.phase.isFinished = true
    · rw [if_pos hphase]
      constructor
      · intro h
        cases h
      · rintro ⟨hj, hnot⟩
        cases hj
        rw [hphase] at hnot
        cases hnot
    · rw [if_neg hphase]
      constructor
      · intro h
        cases h
        exact ⟨rfl, Bool.eq_false_iff.2 hphase⟩
      · rintro ⟨hj, -⟩
        cases hj
        rfl

theorem operationOf?_eq_some {n : String} : operationOf? n = some op ↔ n = op ++ ".json" := by
  unfold operationOf?
  dsimp only
  constructor
  · intro h
    split at h
    · next hsuffix =>
      obtain ⟨front, hfront⟩ := List.isSuffixOf_iff_suffix.1 hsuffix
      cases h
      rw [← hfront, ← String.toList_inj, ← hfront]
      simp
    · cases h
  · rintro rfl
    rw [if_pos (List.isSuffixOf_iff_suffix.2 (by simp [String.toList_append]))]
    simp [String.toList_append]

theorem check_of_join {p : Path} {name : String} (hname : IsName name) (hp : p.text ≠ "")
    (h : check (p.join name) = .ok ()) : check p = .ok () := by
  obtain ⟨middle, hmiddle⟩ : ∃ middle, (p.join name).text = p.text ++ middle := by
    unfold join
    rw [if_neg hname.head_ne_slash]
    split
    · exact ⟨name, rfl⟩
    · exact ⟨"/" ++ name, String.append_assoc⟩
  unfold check at h ⊢
  rw [hmiddle] at h
  split at h
  · cases h
  split at h
  · cases h
  next hnul =>
  split at h
  · cases h
  next hlong =>
  rw [String.utf8ByteSize_append] at hlong
  rw [String.toList_append, List.mem_append, not_or] at hnul
  rw [if_neg hp, if_neg hnul.1, if_neg (by omega)]

/-- The names of the directory of journals. -/
def journalsNames : List String := [toolDirName, "ops"]

theorem isName_journalsNames : ∀ n ∈ journalsNames, IsName n := by decide

theorem place_journal (base : Location) (op : String) :
    base ++ journalsNames ++ [op ++ ".json"] = base ++ journalNames op := List.append_assoc _ _ _

/-- A path to a journal goes through the directory of journals. -/
theorem proper_journals (hop : '/' ∉ op.toList) (h : Proper l.root (journalNames op)) :
    Proper l.root journalsNames where
  check := by
    have hname : IsName (op ++ ".json") := isName_append hop (by decide) (by decide)
    refine check_of_join hname ?_ h.check
    intro hempty
    obtain ⟨front, hpieces, -⟩ := l.toolDir.pieces_join (s := "ops") (by decide)
    have htext : l.toolDir.join "ops" = ⟨""⟩ := congrArg Path.mk hempty
    have hlast := congrArg List.getLast? (hpieces.symm.trans (congrArg pieces htext))
    rw [List.getLast?_concat] at hlast
    exact absurd (Option.some.inj hlast) (by decide)
  sizes := fun n hn => h.sizes n (List.mem_append_left [op ++ ".json"] hn)

/-- Where the directory of journals should be, there is a file. -/
def Blocked (t : FileTree) (l : Layout) (base : Location) : Prop :=
  Proper l.root journalsNames ∧ t.contentAt? (base ++ journalsNames) ≠ none

theorem Sited.find_journals (hs : Sited t l base) {place : Location} {n : Node} :
    t.find l.journals = .ok (place, n) ↔ Proper l.root journalsNames ∧
      place = base ++ journalsNames ∧ t.node? (base ++ journalsNames) = some n :=
  hs.well.find_descend hs.root isName_journalsNames

theorem Sited.list_of_blocked (hs : Sited t l base) (h : Blocked t l base) :
    list t l = .error (.file .notDirectory) := by
  obtain ⟨b, hb⟩ := Option.ne_none_iff_exists'.1 h.2
  have hfind := hs.find_journals.2 ⟨h.1, rfl, contentAt?_eq_some.1 hb⟩
  unfold list has FileTree.list
  rw [hfind]
  rfl

/-- Otherwise every operation that has a journal is listed once. -/
theorem Sited.list_of_not_blocked (hs : Sited t l base) (h : ¬ Blocked t l base) :
    ∃ ops, list t l = .ok ops ∧ ops.Nodup ∧ (∀ op ∈ ops, '/' ∉ op.toList) ∧
      ∀ op j, '/' ∉ op.toList → read t l op = .ok j → op ∈ ops := by
  unfold list has FileTree.list
  cases hfind : t.find l.journals with
  | error e =>
    refine ⟨[], rfl, List.nodup_nil, by simp, fun op j hop hread => ?_⟩
    obtain ⟨b, -, hproper, hcontent, -⟩ := (hs.read_eq_ok hop).1 hread
    have hdir : t.node? (base ++ journalsNames) = some .directory := by
      refine hs.well.tree _ (op ++ ".json") ?_
      rw [place_journal]
      exact node?_ne_none_of_contentAt? hcontent
    rw [hs.find_journals.2 ⟨proper_journals hop hproper, rfl, hdir⟩] at hfind
    cases hfind
  | ok found =>
    obtain ⟨place, n⟩ := found
    obtain ⟨hproper, rfl, hnode⟩ := hs.find_journals.1 hfind
    cases n with
    | file b => exact absurd ⟨hproper, by simp [contentAt?_eq_some.2 hnode]⟩ h
    | directory =>
      refine ⟨_, rfl, ?_, ?_, ?_⟩
      · rw [List.nodup_reverse]
        refine List.Nodup.filterMap (fun n n' op hn hn' => ?_) (nodup_namesIn _ _)
        rw [operationOf?_eq_some.1 hn, operationOf?_eq_some.1 hn']
      · intro op hop
        rw [List.mem_reverse, List.mem_filterMap] at hop
        obtain ⟨n, hn, hname⟩ := hop
        have hplain := hs.well.names _ (mem_namesIn.1 hn) n (by simp)
        rw [operationOf?_eq_some.1 hname] at hplain
        exact fun hslash => hplain.noSlash (by simp [hslash])
      · intro op j hop hread
        obtain ⟨b, -, -, hcontent, -⟩ := (hs.read_eq_ok hop).1 hread
        rw [List.mem_reverse, List.mem_filterMap]
        refine ⟨op ++ ".json", mem_namesIn.2 ?_, operationOf?_eq_some.2 rfl⟩
        rw [place_journal]
        exact node?_ne_none_of_contentAt? hcontent

/-! ## One journal more -/

/-- The second result lists what the first does, and the journal `own` if there is one. -/
inductive Gains (own : Option Journal) :
    Except Error (List Journal) → Except Error (List Journal) → Prop where
  | listed {js js' : List Journal} (h : js'.Perm (own.toList ++ js)) : Gains own (.ok js) (.ok js')
  /-- Neither can be listed. -/
  | refused (e : Error) (h : own = none) : Gains own (.error e) (.error e)

/-- What is gathered from two lists without duplicates is the same if every element comes from the
same in both. -/
theorem perm_filterMap {α β : Type} {xs ys : List α} {f g : α → Option β} (hxs : xs.Nodup)
    (hys : ys.Nodup) (h : ∀ a b, a ∈ xs ∧ f a = some b ↔ a ∈ ys ∧ g a = some b) :
    (xs.filterMap f).Perm (ys.filterMap g) := by
  have hpairs (f : α → Option β) (xs : List α) : xs.filterMap f =
      (xs.filterMap fun a => (f a).map fun b => (a, b)).map Prod.snd := by
    rw [List.map_filterMap]
    congr 1
    funext a
    cases f a <;> rfl
  have hnodup (f : α → Option β) {xs : List α} (hxs : xs.Nodup) :
      (xs.filterMap fun a => (f a).map fun b => (a, b)).Nodup := by
    refine List.Nodup.filterMap (fun a a' e ha ha' => ?_) hxs
    obtain ⟨b, -, rfl⟩ := Option.map_eq_some_iff.1 ha
    obtain ⟨b', -, hsame⟩ := Option.map_eq_some_iff.1 ha'
    exact (congrArg Prod.fst hsame).symm
  rw [hpairs f, hpairs g]
  refine List.Perm.map _ ((List.perm_ext_iff_of_nodup (hnodup f hxs) (hnodup g hys)).2 ?_)
  rintro ⟨a, b⟩
  simpa [List.mem_filterMap] using h a b

theorem journalNames_inj {op' : String} (h : base ++ journalNames op = base ++ journalNames op') :
    op = op' := by
  simpa [journalNames, String.append_left_inj] using h

/-- The trees agree on every journal but that of `op`. -/
def Agree (base : Location) (op : String) (t t' : FileTree) : Prop :=
  ∀ j, InJournals base j → j ≠ base ++ journalNames op → t'.contentAt? j = t.contentAt? j

theorem Agree.trans {t'' : FileTree} (h : Agree base op t t') (h' : Agree base op t' t'') :
    Agree base op t t'' := fun j hj hne => (h' j hj hne).trans (h j hj hne)

theorem Agree.of_keeps (h : Keeps (InJournals base) t t') : Agree base op t t' := fun j hj _ =>
  h.content j hj

/-- Whatever a write of a journal comes to, other journals stay as they are. -/
theorem Sited.agree_save {h : Host} (hs : Sited h.files l base) (hop : '/' ∉ j.operation.toList) :
    Agree base j.operation h.files ((j.save l).after h).files := by
  have havoids : Avoids (· ≠ base ++ journalNames j.operation) h.files (l.journal j.operation) :=
    fun _ _ hkeeps hl hne => hne (eq_of_locate_journal (hkeeps.walk hs.root) hop hl)
  exact fun i _ hi => (keeps_save havoids).content i hi

theorem Agree.read (h : Agree base op t t') (hs : Sited t l base) (hs' : Sited t' l base)
    {op' : String} (hop' : '/' ∉ op'.toList) (hne : op' ≠ op) :
    Journal.read t' l op' = .ok j ↔ Journal.read t l op' = .ok j := by
  have hcontent := h (base ++ journalNames op') (inJournals_journal base op')
    fun hsame => hne (journalNames_inj hsame)
  rw [hs.read_eq_ok hop', hs'.read_eq_ok hop', hcontent]

theorem Agree.pending? (h : Agree base op t t') (hs : Sited t l base) (hs' : Sited t' l base)
    {op' : String} (hop' : '/' ∉ op'.toList) (hne : op' ≠ op) :
    Journal.pending? t' l op' = some j ↔ Journal.pending? t l op' = some j := by
  rw [pending?_eq_some, pending?_eq_some, h.read hs hs' hop' hne]

theorem Agree.blocked (h : Agree base op t t') : Blocked t' l base ↔ Blocked t l base := by
  unfold Blocked
  rw [h (base ++ journalsNames) (List.prefix_refl _) fun hsame => ?_]
  exact absurd (List.append_cancel_left hsame) (by simp [journalsNames, journalNames])

/-- Where a file stands for the directory of journals, none can be read. -/
theorem Blocked.pending? (h : Blocked t l base) (hs : Sited t l base) (hop : '/' ∉ op.toList) :
    Journal.pending? t l op = none := by
  refine Option.eq_none_iff_forall_ne_some.2 fun j hj => ?_
  obtain ⟨b, -, -, hcontent, -⟩ := (hs.read_eq_ok hop).1 (pending?_eq_some.1 hj).1
  have hdir : t.node? (base ++ journalsNames) = some .directory := by
    refine hs.well.tree _ (op ++ ".json") ?_
    rw [place_journal]
    exact node?_ne_none_of_contentAt? hcontent
  refine h.2 (Option.eq_none_iff_forall_ne_some.2 fun b hb => ?_)
  rw [contentAt?_eq_some.1 hb] at hdir
  cases hdir

/-- Only the journal of one operation differs between two trees, and it is not unfinished in the
first: then the unfinished journals are the same but for it. -/
theorem Agree.gains (h : Agree base op t t') (hs : Sited t l base) (hs' : Sited t' l base)
    (hop : '/' ∉ op.toList) (hnew : Journal.pending? t l op = none) :
    Gains (Journal.pending? t' l op) (unfinished t l) (unfinished t' l) := by
  have hunfinished (t : FileTree) :
      unfinished t l = (list t l).map (List.filterMap (Journal.pending? t l)) := rfl
  rw [hunfinished, hunfinished]
  by_cases hblocked : Blocked t l base
  · rw [hs.list_of_blocked hblocked, hs'.list_of_blocked (h.blocked.2 hblocked)]
    exact .refused _ ((h.blocked.2 hblocked).pending? hs' hop)
  obtain ⟨ops, hlist, hnodup, hplain, hall⟩ := hs.list_of_not_blocked hblocked
  obtain ⟨ops', hlist', hnodup', hplain', hall'⟩ := hs'.list_of_not_blocked
    fun hnot => hblocked (h.blocked.1 hnot)
  rw [hlist, hlist']
  refine .listed ?_
  -- the journals of all other operations are the same
  have hrest : ((ops'.erase op).filterMap (Journal.pending? t' l)).Perm
      (ops.filterMap (Journal.pending? t l)) := by
    refine perm_filterMap (hnodup'.erase op) hnodup fun op' j => ?_
    rw [hnodup'.mem_erase_iff]
    constructor
    · rintro ⟨⟨hne, hmem⟩, hj⟩
      have hj' := (h.pending? hs hs' (hplain' op' hmem) hne).1 hj
      exact ⟨hall op' j (hplain' op' hmem) (pending?_eq_some.1 hj').1, hj'⟩
    · rintro ⟨hmem, hj⟩
      have hne : op' ≠ op := by
        rintro rfl
        rw [hnew] at hj
        cases hj
      have hj' := (h.pending? hs hs' (hplain op' hmem) hne).2 hj
      exact ⟨⟨hne, hall' op' j (hplain op' hmem) (pending?_eq_some.1 hj').1⟩, hj'⟩
  cases hj : Journal.pending? t' l op with
  | none =>
    by_cases hmem : op ∈ ops'
    · refine ((List.perm_cons_erase hmem).filterMap _).trans ?_
      rw [List.filterMap_cons_none hj]
      exact hrest
    · rwa [List.erase_of_not_mem hmem] at hrest
  | some j =>
    have hmem := hall' op j hop (pending?_eq_some.1 hj).1
    refine ((List.perm_cons_erase hmem).filterMap _).trans ?_
    rw [List.filterMap_cons_some hj]
    exact hrest.cons j

end Journal

end AudioProject
