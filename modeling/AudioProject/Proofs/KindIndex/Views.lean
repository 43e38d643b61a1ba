import AudioProject.Proofs.KindIndex
import Mathlib.Data.List.Induction

/-
  The views of an index behind any sequence of insertions. An id is found with its last entry, but
  points to the parent of the last of its entries that named one, and a path leads to the id that
  was put there last (`get?_entered`, `parent?_entered`, `paths_entered`). So tree, paths and
  entries agree exactly if no id comes again without the parent it had, and none leaves the path
  that leads to it: `views_agree_iff`.
-/

namespace AudioProject

/-- The last of the entries that `p` holds of. -/
def latest? (es : List IndexEntry) (p : IndexEntry → Bool) : Option IndexEntry :=
  es.reverse.find? p

theorem latest?_concat (es : List IndexEntry) (e : IndexEntry) (p : IndexEntry → Bool) :
    latest? (es ++ [e]) p = if p e then some e else latest? es p := by
  unfold latest?
  rw [List.reverse_append, List.reverse_singleton, List.singleton_append, List.find?_cons]
  cases p e <;> rfl

theorem exists_of_latest? {es : List IndexEntry} {p : IndexEntry → Bool} {e : IndexEntry}
    (h : latest? es p = some e) : e ∈ es ∧ p e = true :=
  ⟨List.mem_reverse.1 (List.mem_of_find?_eq_some h), List.find?_some h⟩

theorem exists_latest? {es : List IndexEntry} {p : IndexEntry → Bool} {e : IndexEntry}
    (he : e ∈ es) (hp : p e = true) : ∃ e', latest? es p = some e' :=
  Option.isSome_iff_exists.1 (List.find?_isSome.2 ⟨e, List.mem_reverse.2 he, hp⟩)

/-- The last entry of an id. -/
def latestOf? (es : List IndexEntry) (id : ObjectId) : Option IndexEntry :=
  latest? es fun e => e.id = id

/-- The last entry of an id that names a parent. -/
def latestUnder? (es : List IndexEntry) (id : ObjectId) : Option IndexEntry :=
  latest? es fun e => e.id = id ∧ e.parent?.isSome

/-- The last entry with a path. -/
def latestAt? (es : List IndexEntry) (q : AssetPath) : Option IndexEntry :=
  latest? es fun e => e.assetPath? = some q

namespace KindIndex

/-! ## What a sequence of entries leaves -/

/-- The index of a kind after entries were put in one after the other. -/
def entered (k : Kind) (es : List IndexEntry) : KindIndex := es.foldl insert (empty k)

theorem entered_concat (k : Kind) (es : List IndexEntry) (e : IndexEntry) :
    entered k (es ++ [e]) = (entered k es).insert e := by
  unfold entered
  rw [List.foldl_append]
  rfl

theorem isSound_entered (k : Kind) (es : List IndexEntry) : (entered k es).IsSound := by
  induction es using List.reverseRecOn with
  | nil => exact .empty k
  | append_singleton es e ih =>
    rw [entered_concat]
    exact ih.insert e

theorem get?_entered (k : Kind) (es : List IndexEntry) (id : ObjectId) :
    (entered k es).get? id = latestOf? es id := by
  unfold latestOf?
  induction es using List.reverseRecOn with
  | nil => rfl
  | append_singleton es e ih =>
    rw [entered_concat, get?_insert, latest?_concat, ih]
    simp only [decide_eq_true_eq]

theorem parent?_entered (k : Kind) (es : List IndexEntry) (id : ObjectId) :
    (entered k es).tree.parent? id = (latestUnder? es id).bind IndexEntry.parent? := by
  unfold latestUnder?
  induction es using List.reverseRecOn with
  | nil => rfl
  | append_singleton es e ih =>
    rw [entered_concat, parent?_insert, latest?_concat, ih]
    by_cases hid : e.id = id
    · cases hparent : e.parent? with
      | none => simp [hid]
      | some p => simp [hid, hparent]
    · simp [hid]

theorem paths_entered (k : Kind) (es : List IndexEntry) (q : AssetPath) :
    (entered k es).paths.get? q = (latestAt? es q).map IndexEntry.id := by
  unfold latestAt?
  induction es using List.reverseRecOn with
  | nil => rfl
  | append_singleton es e ih =>
    rw [entered_concat, paths_insert, latest?_concat, ih]
    by_cases hpath : e.assetPath? = some q <;> simp [hpath]

/-- A path leads to the present entry of the id that was put there last. -/
theorem byPath?_entered (k : Kind) (es : List IndexEntry) (q : AssetPath) :
    (entered k es).byPath? q = (latestAt? es q).bind fun e => latestOf? es e.id := by
  unfold byPath?
  rw [paths_entered]
  cases latestAt? es q with
  | none => rfl
  | some e => exact get?_entered k es e.id

/-! ## Agreement -/

/-- The tree and the paths say of each id what its entry says. -/
structure ViewsAgree (x : KindIndex) : Prop where
  parent : ∀ id, x.tree.parent? id = (x.get? id).bind IndexEntry.parent?
  children : ∀ p c, c ∈ x.tree.children p ↔ (x.get? c).bind IndexEntry.parent? = some p
  path : ∀ q e, x.byPath? q = some e → e.assetPath? = some q
  found : ∀ q id e, x.get? id = some e → e.assetPath? = some q → (x.byPath? q).isSome = true

/-- An id that once named a parent names one in its last entry. -/
def ParentsStay (es : List IndexEntry) : Prop :=
  ∀ e ∈ es, e.parent?.isSome = true →
    ∀ e', latestOf? es e.id = some e' → e'.parent?.isSome = true

/-- The entry that was put at a path last is not followed by one of the same id elsewhere. -/
def PathsStay (es : List IndexEntry) : Prop :=
  ∀ q e, latestAt? es q = some e → ∀ e', latestOf? es e.id = some e' → e'.assetPath? = some q

/-- An id whose last entry names a parent points to it. -/
theorem latestUnder?_eq_latestOf? {es : List IndexEntry} {id : ObjectId} {e : IndexEntry}
    (h : latestOf? es id = some e) (hparent : e.parent?.isSome = true) :
    latestUnder? es id = some e := by
  unfold latestOf? at h
  unfold latestUnder?
  induction es using List.reverseRecOn with
  | nil => cases h
  | append_singleton es e' ih =>
    rw [latest?_concat] at h ⊢
    by_cases hid : e'.id = id
    · rw [if_pos (by simpa using hid)] at h
      cases h
      simp [hid, hparent]
    · rw [if_neg (by simpa using hid)] at h
      rw [if_neg (by simp [hid]), ih h]

/-- The pointer of an id is the parent in its last entry, if that names one. -/
theorem parent?_entered_of_latestOf? {k : Kind} {es : List IndexEntry} {id p : ObjectId}
    (h : (latestOf? es id).bind IndexEntry.parent? = some p) :
    (entered k es).tree.parent? id = some p := by
  obtain ⟨e, he, hp⟩ := Option.bind_eq_some_iff.1 h
  rw [parent?_entered, latestUnder?_eq_latestOf? he (by rw [hp]; rfl)]
  exact hp

theorem parent?_entered_iff (k : Kind) (es : List IndexEntry) :
    (∀ id, (entered k es).tree.parent? id = (latestOf? es id).bind IndexEntry.parent?) ↔
      ParentsStay es := by
  constructor
  · intro hagree e he hparent e' he'
    obtain ⟨e₁, he₁⟩ : ∃ e₁, latestUnder? es e.id = some e₁ :=
      exists_latest? he (decide_eq_true ⟨rfl, hparent⟩)
    obtain ⟨p, hp⟩ := Option.isSome_iff_exists.1
      (of_decide_eq_true (exists_of_latest? he₁).2).2
    have hsame := hagree e.id
    rw [parent?_entered, he₁, he'] at hsame
    exact Option.isSome_iff_exists.2 ⟨p, hsame.symm.trans hp⟩
  · intro hstay id
    cases hlast : (latestOf? es id).bind IndexEntry.parent? with
    | some p => exact parent?_entered_of_latestOf? hlast
    | none =>
      rw [parent?_entered]
      cases hunder : latestUnder? es id with
      | none => rfl
      | some e =>
        obtain ⟨hmem, hp⟩ := exists_of_latest? hunder
        obtain ⟨rfl, hparent⟩ := of_decide_eq_true hp
        obtain ⟨e', he'⟩ : ∃ e', latestOf? es e.id = some e' :=
          exists_latest? hmem (decide_eq_true rfl)
        obtain ⟨p, hp'⟩ := Option.isSome_iff_exists.1 (hstay e hmem hparent e' he')
        rw [he'] at hlast
        cases hp'.symm.trans hlast

theorem byPath?_entered_iff (k : Kind) (es : List IndexEntry) :
    (∀ q e, (entered k es).byPath? q = some e → e.assetPath? = some q) ↔ PathsStay es := by
  constructor
  · intro hagree q e he e' he'
    refine hagree q e' ?_
    rw [byPath?_entered, he]
    exact he'
  · intro hstay q e' he'
    rw [byPath?_entered] at he'
    obtain ⟨e, he, hlast⟩ := Option.bind_eq_some_iff.1 he'
    exact hstay q e he e' hlast

/-- Some entry is found at each path that an entry has. -/
theorem isSome_byPath?_entered {k : Kind} {es : List IndexEntry} {q : AssetPath} {id : ObjectId}
    {e : IndexEntry} (h : (entered k es).get? id = some e) (hpath : e.assetPath? = some q) :
    ((entered k es).byPath? q).isSome = true := by
  rw [get?_entered] at h
  obtain ⟨e₁, he₁⟩ : ∃ e₁, latestAt? es q = some e₁ :=
    exists_latest? (exists_of_latest? h).1 (decide_eq_true hpath)
  obtain ⟨e₂, he₂⟩ : ∃ e₂, latestOf? es e₁.id = some e₂ :=
    exists_latest? (exists_of_latest? he₁).1 (decide_eq_true rfl)
  rw [byPath?_entered, he₁]
  exact Option.isSome_iff_exists.2 ⟨e₂, he₂⟩

/-- Behind every sequence of entries the pointers and the child lists agree, an entry's parent is
in the tree, and some entry is found at its path. The tree and the paths say just what the entries
say, exactly if no id comes again without the parent it had and none leaves the path that leads to
it. -/
theorem views_agree_iff (k : Kind) (es : List IndexEntry) :
    (∀ p c, c ∈ (entered k es).tree.children p ↔ (entered k es).tree.parent? c = some p) ∧
      (∀ id p, ((entered k es).get? id).bind IndexEntry.parent? = some p →
        (entered k es).tree.parent? id = some p) ∧
      (∀ q id e, (entered k es).get? id = some e → e.assetPath? = some q →
        ((entered k es).byPath? q).isSome = true) ∧
      ((entered k es).ViewsAgree ↔ ParentsStay es ∧ PathsStay es) := by
  have hcoherent := (isSound_entered k es).coherent.mem_iff
  have hfound : ∀ q id e, (entered k es).get? id = some e → e.assetPath? = some q →
      ((entered k es).byPath? q).isSome = true := fun q id e => isSome_byPath?_entered
  refine ⟨hcoherent, ?_, hfound, ?_, ?_⟩
  · intro id p hp
    rw [get?_entered] at hp
    exact parent?_entered_of_latestOf? hp
  · intro h
    refine ⟨(parent?_entered_iff k es).1 fun id => ?_, (byPath?_entered_iff k es).1 h.path⟩
    rw [← get?_entered k]
    exact h.parent id
  · rintro ⟨hparents, hpaths⟩
    have hparent : ∀ id, (entered k es).tree.parent? id =
        ((entered k es).get? id).bind IndexEntry.parent? := by
      intro id
      rw [get?_entered]
      exact (parent?_entered_iff k es).2 hparents id
    refine ⟨hparent, fun p c => ?_, (byPath?_entered_iff k es).2 hpaths, hfound⟩
    rw [hcoherent, hparent]

/-! ## Samples -/

def sampleEntry (id : ObjectId) (position : Position) : IndexEntry :=
  ⟨id, .eventFolder, "", position⟩

def crates : ObjectId := ⟨"crates", by decide⟩

def drones : ObjectId := ⟨"drones", by decide⟩

def riff : ObjectId := ⟨"riff", by decide⟩

def reels : AssetPath := ⟨["reels"], by decide⟩

def cans : AssetPath := ⟨["cans"], by decide⟩

/-- An id that comes again under another parent, and one that takes the path of another. -/
def moves : List IndexEntry :=
  [sampleEntry riff (.parent crates), sampleEntry crates .root, sampleEntry riff (.parent drones),
    sampleEntry drones (.path reels), sampleEntry ⟨"spool", by decide⟩ (.path reels)]

theorem parentsStay_moves : ParentsStay moves := by
  have hlast : ∀ e ∈ moves, e.parent?.isSome = true →
      (latestOf? moves e.id).all (fun e' => e'.parent?.isSome) = true := by decide
  intro e he hparent e' he'
  simpa [he'] using hlast e he hparent

theorem pathsStay_moves : PathsStay moves := by
  have hlast : ∀ e ∈ moves, (latestOf? moves e.id).all (fun e' =>
      decide (e = e' ∨ e.assetPath? = none)) = true := by decide +kernel
  intro q e he e' he'
  obtain ⟨hmem, hq⟩ := exists_of_latest? he
  have hq : e.assetPath? = some q := of_decide_eq_true hq
  have hsame := hlast e hmem
  rw [he', Option.all_some, decide_eq_true_eq, hq] at hsame
  rcases hsame with rfl | hnone
  · exact hq
  · cases hnone

theorem views_agree_moves :
    ParentsStay moves ∧ PathsStay moves ∧ (entered .eventFolder moves).ViewsAgree ∧
      (entered .eventFolder moves).tree.children crates = [] :=
  ⟨parentsStay_moves, pathsStay_moves,
    (views_agree_iff .eventFolder moves).2.2.2.2 ⟨parentsStay_moves, pathsStay_moves⟩,
    by decide +kernel⟩

/-- An id that comes again as a root stays among the children of its old parent, and one that
comes again at another path is found at the old one. -/
theorem stale_views :
    let looped := [sampleEntry riff (.parent crates), sampleEntry riff .root]
    let moved := [sampleEntry riff (.path reels), sampleEntry riff (.path cans)]
    ((entered .eventFolder looped).get? riff).bind IndexEntry.parent? = none ∧
      (entered .eventFolder looped).tree.parent? riff = some crates ∧
      (entered .eventFolder looped).tree.children crates = [riff] ∧
      (entered .assetFolder moved).byPath? reels = some (sampleEntry riff (.path cans)) ∧
      ¬ (entered .eventFolder looped).ViewsAgree ∧ ¬ (entered .assetFolder moved).ViewsAgree := by
  intro looped moved
  have hentry : ((entered .eventFolder looped).get? riff).bind IndexEntry.parent? = none := by
    decide +kernel
  have hparent : (entered .eventFolder looped).tree.parent? riff = some crates := by
    decide +kernel
  have hpath : (entered .assetFolder moved).byPath? reels =
      some (sampleEntry riff (.path cans)) := by
    decide +kernel
  refine ⟨hentry, hparent, by decide +kernel, hpath, fun h => ?_, fun h => ?_⟩
  · cases hparent.symm.trans ((h.parent riff).trans hentry)
  · exact absurd (h.path reels _ hpath) (by decide +kernel)

end KindIndex

end AudioProject
