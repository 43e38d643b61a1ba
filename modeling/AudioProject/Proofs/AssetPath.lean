import AudioProject.AssetPath
import Mathlib.Data.List.Basic
import Mathlib.Data.String.Basic
import Mathlib.Order.Lattice

/-
  Asset folders above each other. A path is above another if its components are the first of the
  other's, and there are more; the parents of a path are the paths above it, nearest first.

  In the written form every component ends with a slash, and none holds one. So one written form
  begins with another exactly if the components do (`text_prefix_iff`): "a" does not come before
  "ab" as "a/" comes before "a/b/". Sorted by its written form, whatever lies between a path and a
  path below it is below it too (`below_of_between`), also where a component has a character that
  comes before the slash.
-/

namespace AudioProject.AssetPath

variable {p q r : AssetPath}

/-- The components of `q` are the first of `p`, which has more. -/
def Above (q p : AssetPath) : Prop := q.components <+: p.components ∧ q ≠ p

theorem Above.depth_lt (h : q.Above p) : q.depth < p.depth := by
  refine lt_of_le_of_ne h.1.length_le fun heq => h.2 ?_
  exact ext (h.1.eq_of_length heq)

theorem above_iff : q.Above p ↔ q.depth < p.depth ∧ q.components <+: p.components := by
  constructor
  · intro h
    exact ⟨h.depth_lt, h.1⟩
  · rintro ⟨hlt, hbegin⟩
    refine ⟨hbegin, ?_⟩
    rintro rfl
    exact absurd hlt (lt_irrefl _)

theorem Above.trans (h : r.Above q) (h' : q.Above p) : r.Above p :=
  above_iff.2 ⟨h.depth_lt.trans h'.depth_lt, h.1.trans h'.1⟩

theorem isAncestorOf_iff : q.isAncestorOf p = true ↔ q.Above p := by
  unfold isAncestorOf
  rw [Bool.and_eq_true, decide_eq_true_eq, List.isPrefixOf_iff_prefix, above_iff]

/-! ## Parents -/

theorem components_take (p : AssetPath) (n : Nat) : (p.take n).components = p.components.take n :=
  rfl

theorem mem_parents_iff : q ∈ p.parents ↔ q.Above p := by
  unfold parents
  simp only [List.mem_map, List.mem_reverse, List.mem_range]
  rw [above_iff]
  constructor
  · rintro ⟨n, hn, rfl⟩
    have hdepth : (p.take n).depth = n := by
      unfold depth at hn ⊢
      rw [components_take, List.length_take, Nat.min_eq_left hn.le]
    exact ⟨by rwa [hdepth], List.take_prefix n p.components⟩
  · rintro ⟨hlt, hbegin⟩
    exact ⟨q.depth, hlt, ext (List.prefix_iff_eq_take.1 hbegin).symm⟩

/-- The nearest parent comes first. -/
theorem pairwise_parents (p : AssetPath) : p.parents.Pairwise fun a b => b.Above a := by
  unfold parents
  rw [List.pairwise_map, List.pairwise_reverse]
  refine List.pairwise_lt_range.imp_of_mem fun {m n} _ hn hmn => above_iff.2 ⟨?_, ?_⟩
  · have hn : n < p.components.length := List.mem_range.1 hn
    simp only [depth, components_take, List.length_take]
    omega
  · exact List.take_prefix_take_left hmn.le

/-! ## The written form -/

theorem toList_text (p : AssetPath) :
    p.text.toList = p.components.flatMap fun c => c.toList ++ ['/'] := by
  unfold text
  rw [String.toList_join, List.flatMap_map]
  simp only [String.toList_append]
  rfl

/-- The path of a file is its name behind the components, with slashes between them. -/
theorem joinFile_eq (p : AssetPath) (name : String) :
    p.joinFile name = Text.joined "/" (p.components ++ [name]) := by
  unfold joinFile text
  induction p.components with
  | nil => simp [Text.joined]
  | cons c cs ih =>
    rw [List.map_cons, String.join_cons, String.append_assoc, ih]
    cases hrest : cs ++ [name] with
    | nil => simp at hrest
    | cons d ds =>
      rw [List.cons_append, hrest]
      rfl

theorem noSlash {c : String} (h : c ∈ p.components) : '/' ∉ c.toList :=
  fun hslash => ((p.valid c h).2.2.2 '/' hslash).1 rfl

/-- The first slash ends the first component. -/
theorem append_slash_inj {c d t u : List Char} (hc : '/' ∉ c) (hd : '/' ∉ d)
    (h : c ++ '/' :: t = d ++ '/' :: u) : c = d ∧ t = u := by
  induction c generalizing d with
  | nil =>
    cases d with
    | nil => exact ⟨rfl, (List.cons.inj h).2⟩
    | cons x d => exact absurd ((List.cons.inj h).1 ▸ List.mem_cons_self) hd
  | cons x c ih =>
    cases d with
    | nil => exact absurd ((List.cons.inj h).1 ▸ List.mem_cons_self) hc
    | cons y d =>
      obtain ⟨rfl, htail⟩ := List.cons.inj h
      rw [List.mem_cons, not_or] at hc hd
      obtain ⟨rfl, rfl⟩ := ih hc.2 hd.2 htail
      exact ⟨rfl, rfl⟩

theorem flatMap_prefix_iff {cs ds : List String} (hcs : ∀ c ∈ cs, '/' ∉ c.toList)
    (hds : ∀ d ∈ ds, '/' ∉ d.toList) :
    (cs.flatMap fun c => c.toList ++ ['/']) <+: (ds.flatMap fun d => d.toList ++ ['/']) ↔
      cs <+: ds := by
  induction cs generalizing ds with
  | nil => simp
  | cons c cs ih =>
    rw [List.forall_mem_cons] at hcs
    cases ds with
    | nil => simp
    | cons d ds =>
      rw [List.forall_mem_cons] at hds
      rw [List.cons_prefix_cons, ← ih hcs.2 hds.2, List.flatMap_cons, List.flatMap_cons]
      simp only [List.append_assoc, List.singleton_append]
      constructor
      · rintro ⟨rest, hrest⟩
        rw [List.append_assoc, List.cons_append] at hrest
        obtain ⟨hhead, htail⟩ := append_slash_inj hcs.1 hds.1 hrest
        exact ⟨String.toList_inj.1 hhead, rest, htail⟩
      · rintro ⟨rfl, hbegin⟩
        rwa [List.prefix_append_right_inj, List.cons_prefix_cons, and_iff_right rfl]

/-- A written form begins with another exactly if the components do. -/
theorem text_prefix_iff : q.text.toList <+: p.text.toList ↔ q.components <+: p.components := by
  rw [toList_text, toList_text]
  exact flatMap_prefix_iff (fun _ => noSlash) (fun _ => noSlash)

theorem text_inj : q.text = p.text ↔ q = p := by
  constructor
  · intro h
    have hqp : q.components <+: p.components := text_prefix_iff.1 (h ▸ List.prefix_rfl)
    have hpq : p.components <+: q.components := text_prefix_iff.1 (h ▸ List.prefix_rfl)
    exact ext (hqp.eq_of_length (hqp.length_le.antisymm hpq.length_le))
  · exact congrArg text

/-! ## The order of written forms -/

/-- What lies between a list and one that it begins, it begins. -/
theorem prefix_of_between {xs ys zs : List Char} (hbegin : xs <+: zs) (hxy : ¬ ys < xs)
    (hyz : ¬ zs < ys) : xs <+: ys := by
  induction xs generalizing ys zs with
  | nil => exact List.nil_prefix
  | cons x xs ih =>
    obtain ⟨zs, rfl⟩ := hbegin
    cases ys with
    | nil => exact absurd (List.nil_lt_cons x xs) hxy
    | cons y ys =>
      rw [List.cons_append, List.cons_lt_cons_iff, not_or] at hyz
      rw [List.cons_lt_cons_iff, not_or] at hxy
      obtain rfl : x = y := le_antisymm (not_lt.1 hxy.1) (not_lt.1 hyz.1)
      have hbegin := ih (List.prefix_append xs zs) (fun h => hxy.2 ⟨rfl, h⟩)
        fun h => hyz.2 ⟨rfl, h⟩
      exact List.cons_prefix_cons.2 ⟨rfl, hbegin⟩

/-- A path is written before those below it. -/
theorem Above.text_lt (h : q.Above p) : q.text < p.text := by
  refine lt_of_le_of_ne ?_ fun heq => h.2 (text_inj.1 heq)
  rw [← not_lt, String.lt_iff_toList_lt, List.not_lt]
  exact (text_prefix_iff.2 h.1).le

/-- Between a path and one below it, only paths below it are written. -/
theorem below_of_between (h : p.Above r) (hpq : p.text < q.text) (hqr : q.text ≤ r.text) :
    p.Above q := by
  refine ⟨text_prefix_iff.1 (prefix_of_between (text_prefix_iff.2 h.1) ?_ ?_), ?_⟩
  · rw [← String.lt_iff_toList_lt]
    exact hpq.not_gt
  · rw [← String.lt_iff_toList_lt]
    exact hqr.not_gt
  · rintro rfl
    exact lt_irrefl _ hpq

end AudioProject.AssetPath
