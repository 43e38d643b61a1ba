import AudioProject.Proofs.Store.OnDisk
import AudioProject.Staging.Commit
import Mathlib.Data.List.Pairwise

/-
  Where the ids of a project are. Its objects are in its documents and in its pending records
  (`Home`), and `UniqueIds` says that no two of them have the same id. Objects that move to
  another place do not matter (`UniqueIds.of_map`); those that come must have ids that are distinct
  and not in use, and no more is needed (`Gains.unique_iff`).
-/

namespace AudioProject

open FileTree Store Staging

/-! ## The objects of a project -/

/-- The document that a file holds, if it holds one. -/
def documentOf? (b : ByteArray) : Option Document :=
  (String.fromUTF8? b).bind fun text => (Document.parse text).toOption

def FileTree.documentAt? (t : FileTree) (j : Location) : Option Document :=
  (t.contentAt? j).bind documentOf?

theorem documentOf?_documentBytes (s : Store) (os : List Object) :
    documentOf? (s.documentBytes os) = some ⟨s.model, os.map Object.named⟩ := by
  unfold documentOf?
  rw [← documentBytes_named, fromUTF8?_documentBytes, Option.bind_some,
    Document.parse_print (Document.hasNamedClasses_named _ _)]
  rfl

namespace Session

variable {base j : Location} {x y : Session} {s : Store} {k : Kind} {r : PendingRecord}
  {os : List Object} {id : ObjectId}

/-- Where the objects of a project at `base` are. -/
inductive Home (base : Location) where
  | document (j : Location) (h : IsDocumentPlace base j)
  | pending (k : Kind) (id : ObjectId)
  deriving DecidableEq

def objectsOf (x : Session) : Home base → List Object
  | .document j _ => (x.host.files.documentAt? j).elim [] Document.objects
  | .pending k id => (x.staging.get? k id).elim [] PendingRecord.objects

def idsOf (x : Session) (a : Home base) : List ObjectId := (x.objectsOf a).map Object.id

/-- Some object of the project has the id. -/
def Uses (base : Location) (x : Session) (id : ObjectId) : Prop :=
  ∃ a : Home base, id ∈ x.idsOf a

/-- No two objects have the same id, neither in one place nor in two. -/
structure UniqueIds (base : Location) (x : Session) : Prop where
  once : ∀ a : Home base, (x.idsOf a).Nodup
  apart : ∀ a b : Home base, a ≠ b → (x.idsOf a).Disjoint (x.idsOf b)

/-! ### The ids at one place -/

theorem idsOf_document_congr {h : IsDocumentPlace base j}
    (hcontent : y.host.files.contentAt? j = x.host.files.contentAt? j) :
    y.idsOf (.document j h) = x.idsOf (.document j h) := by
  simp only [idsOf, objectsOf, documentAt?, hcontent]

theorem idsOf_document {h : IsDocumentPlace base j}
    (hcontent : x.host.files.contentAt? j = some (s.documentBytes os)) :
    x.idsOf (.document j h) = os.map Object.id := by
  simp only [idsOf, objectsOf, documentAt?, hcontent, Option.bind_some, documentOf?_documentBytes,
    Option.elim_some, List.map_map]
  rfl

theorem idsOf_document_of_none {h : IsDocumentPlace base j}
    (hcontent : x.host.files.contentAt? j = none) : x.idsOf (.document j h) = [] := by
  simp only [idsOf, objectsOf, documentAt?, hcontent, Option.bind_none, Option.elim_none,
    List.map_nil]

theorem idsOf_pending_congr (h : y.staging.get? k id = x.staging.get? k id) :
    y.idsOf (.pending k id : Home base) = x.idsOf (.pending k id : Home base) := by
  simp only [idsOf, objectsOf, h]

theorem idsOf_pending (h : x.staging.get? k id = some r) :
    x.idsOf (.pending k id : Home base) = r.objects.map Object.id := by
  simp only [idsOf, objectsOf, h, Option.elim_some]

theorem idsOf_pending_of_none (h : x.staging.get? k id = none) :
    x.idsOf (.pending k id : Home base) = [] := by
  simp only [idsOf, objectsOf, h, Option.elim_none, List.map_nil]

/-! ## How objects come and move -/

/-- The objects of a place may go, or move to another place that no others move to. -/
theorem UniqueIds.of_map (hx : UniqueIds base x) {σ : Home base → Home base}
    (hσ : Function.Injective σ) (h : ∀ a, y.idsOf a = [] ∨ y.idsOf a = x.idsOf (σ a)) :
    UniqueIds base y := by
  constructor
  · intro a
    rcases h a with ha | ha
    · rw [ha]
      exact List.nodup_nil
    · rw [ha]
      exact hx.once _
  · intro a b hne
    rcases h a with ha | ha
    · rw [ha]
      exact List.disjoint_nil_left _
    rcases h b with hb | hb
    · rw [hb]
      exact List.disjoint_nil_right _
    rw [ha, hb]
    exact hx.apart _ _ (hσ.ne hne)

/-- Lists of ids come, each to a place of its own where none was, and all others stay. -/
structure Gains {ι : Type} (ds : List ι) (place : ι → Option (Home base)) (ids : ι → List ObjectId)
    (x y : Session) : Prop where
  new : ∀ d ∈ ds, ∃ a, place d = some a ∧ x.idsOf a = [] ∧ y.idsOf a = ids d
  apart : ds.Pairwise fun d e => place d ≠ place e
  others : ∀ a, (∀ d ∈ ds, place d ≠ some a) → y.idsOf a = x.idsOf a

namespace Gains

variable {ι : Type} {ds : List ι} {place : ι → Option (Home base)} {ids : ι → List ObjectId}

theorem cases (h : Gains ds place ids x y) (a : Home base) :
    y.idsOf a = x.idsOf a ∨
      ∃ d ∈ ds, place d = some a ∧ x.idsOf a = [] ∧ y.idsOf a = ids d := by
  by_cases hnew : ∃ d ∈ ds, place d = some a
  · obtain ⟨d, hd, hplace⟩ := hnew
    obtain ⟨b, hb, hnone, hids⟩ := h.new d hd
    obtain rfl : a = b := Option.some.inj (hplace.symm.trans hb)
    exact Or.inr ⟨d, hd, hplace, hnone, hids⟩
  · exact Or.inl (h.others a fun d hd hplace => hnew ⟨d, hd, hplace⟩)

theorem unique (h : Gains ds place ids x y) (hx : UniqueIds base x)
    (hnodup : (ds.flatMap ids).Nodup) (hunused : ∀ id ∈ ds.flatMap ids, ¬ Uses base x id) :
    UniqueIds base y := by
  obtain ⟨honce, hapart⟩ := List.nodup_flatMap.1 hnodup
  have hnew : ∀ {d}, d ∈ ds → ∀ a : Home base, (x.idsOf a).Disjoint (ids d) :=
    fun hd a id hold hcomes => hunused id (List.mem_flatMap.2 ⟨_, hd, hcomes⟩) ⟨a, hold⟩
  constructor
  · intro a
    rcases h.cases a with ha | ⟨d, hd, -, -, ha⟩
    · rw [ha]
      exact hx.once a
    · rw [ha]
      exact honce d hd
  · intro a b hne
    rcases h.cases a with ha | ⟨d, hd, hda, -, ha⟩ <;>
      rcases h.cases b with hb | ⟨e, he, heb, -, hb⟩ <;> rw [ha, hb]
    · exact hx.apart a b hne
    · exact hnew he a
    · exact List.disjoint_symm (hnew hd b)
    · have hde : d ≠ e := by
        rintro rfl
        exact hne (Option.some.inj (hda.symm.trans heb))
      have : Std.Symm (Function.onFun List.Disjoint ids) := ⟨fun _ _ h => List.disjoint_symm h⟩
      exact hapart.forall hd he hde

theorem nodup (h : Gains ds place ids x y) (hy : UniqueIds base y) : (ds.flatMap ids).Nodup := by
  refine List.nodup_flatMap.2 ⟨fun d hd => ?_, h.apart.imp_of_mem fun {d e} hd he hne => ?_⟩
  · obtain ⟨a, -, -, ha⟩ := h.new d hd
    exact ha ▸ hy.once a
  · obtain ⟨a, hda, -, ha⟩ := h.new d hd
    obtain ⟨b, heb, -, hb⟩ := h.new e he
    rw [hda, heb] at hne
    show (ids d).Disjoint (ids e)
    rw [← ha, ← hb]
    exact hy.apart a b fun hsame => hne (congrArg some hsame)

theorem unused (h : Gains ds place ids x y) (hy : UniqueIds base y)
    (hid : id ∈ ds.flatMap ids) : ¬ Uses base x id := by
  rintro ⟨b, hb⟩
  obtain ⟨d, hd, hid⟩ := List.mem_flatMap.1 hid
  obtain ⟨a, -, hnone, ha⟩ := h.new d hd
  have hne : a ≠ b := by
    rintro rfl
    rw [hnone] at hb
    cases hb
  -- an id that was in use is not where ids come, so it is still there
  rcases h.cases b with hkept | ⟨-, -, -, hnone', -⟩
  · exact hy.apart a b hne (ha ▸ hid) (hkept ▸ hb)
  · rw [hnone'] at hb
    cases hb

/-- Ids stay unique just if those that come are distinct, and none of them was in use. -/
theorem unique_iff (h : Gains ds place ids x y) (hx : UniqueIds base x) :
    UniqueIds base y ↔ (ds.flatMap ids).Nodup ∧ ∀ id ∈ ds.flatMap ids, ¬ Uses base x id :=
  ⟨fun hy => ⟨h.nodup hy, fun _ hid => h.unused hy hid⟩, fun hids => h.unique hx hids.1 hids.2⟩

end Gains

end Session

end AudioProject
