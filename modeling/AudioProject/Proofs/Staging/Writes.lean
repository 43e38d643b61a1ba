import AudioProject.Proofs.Staging.Trail
import AudioProject.Proofs.Store.OnDisk

/-
  The documents of a commit in the order in which they are written. `Session.Writes` reads them off
  the moments of a commit. Each of them is there in the end, and nothing was at its path before
  (`Session.Writes.new`).
-/

namespace AudioProject

open FileTree Store

/-- A document that was written. -/
structure WrittenRecord where
  record : PendingRecord
  path : Path

/-- How it is journaled. -/
def WrittenRecord.deed (w : WrittenRecord) : Journal.Deed :=
  .objectWrite w.record.object.objectClass.name w.record.id w.path

namespace Session

variable {base : Location} {x y z : Session} {xs : List Session} {ws : List WrittenRecord}
  {k : Kind} {r : PendingRecord}

/-- The documents that were written from one session to another along the moments between, the
first one first. -/
inductive Writes (base : Location) (x : Session) :
    List Session → List WrittenRecord → Session → Prop where
  | refl : Writes base x [] [] x
  | idle {xs : List Session} {ws : List WrittenRecord} {y z : Session} (h : Writes base x xs ws y)
    (last : Idle y z) : Writes base x (xs ++ [z]) ws z
  | write {xs : List Session} {ws : List WrittenRecord} {y z : Session} {k : Kind}
    {r : PendingRecord} {path : Path} (h : Writes base x xs ws y) (last : Placed base k r y z)
    (place : y.store.layout.objectPath? r.object.objectClass r.id = some path) :
    Writes base x (xs ++ [z]) (ws ++ [⟨r, path⟩]) z

theorem Placed.documents (h : Placed base k r x y) :
    Keeps (IsContent x.host.files) x.host.files y.host.files := by
  obtain ⟨dir, -, -, hcomes⟩ := h.document
  exact hcomes.keeps

/-- A record that was written was pending and is not any more, so it is known which one it was. -/
theorem Placed.inj {j : Kind} {q : PendingRecord} (h : Placed base k r x y)
    (h' : Placed base j q x y) : r = q := by
  have htaken := congrArg (fun g => Staging.get? g k r.id) (h.staging.symm.trans h'.staging)
  simp only [Staging.get?_take, and_self, if_true, h.pending] at htaken
  split at htaken
  · next hsame =>
    obtain ⟨rfl, hid⟩ := hsame
    have hpending := h'.pending
    rw [hid, h.pending] at hpending
    exact Option.some.inj hpending
  · cases htaken

theorem Placed.not_idle (h : Placed base k r x y) : ¬ Idle x y := by
  intro hidle
  have htaken := congrArg (fun g => Staging.get? g k r.id) (h.staging.symm.trans hidle.staging)
  simp only [Staging.get?_take, and_self, if_true, h.pending] at htaken
  cases htaken

namespace Writes

/-- The moments tell which documents were written, and in which order. -/
theorem unique {y' : Session} {ws' : List WrittenRecord} (h : Writes base x xs ws y)
    (h' : Writes base x xs ws' y') : y = y' ∧ ws = ws' := by
  induction h generalizing ws' y' with
  | refl =>
    generalize hnil : ([] : List Session) = xs at h'
    cases h' with
    | refl => exact ⟨rfl, rfl⟩
    | idle _ _ => simp at hnil
    | write _ _ _ => simp at hnil
  | @idle xs ws y z h last ih =>
    generalize hlast : xs ++ [z] = xs' at h'
    cases h' with
    | refl => simp at hlast
    | idle h' last' =>
      obtain ⟨rfl, hz⟩ := List.append_inj' hlast rfl
      obtain rfl := (List.cons.inj hz).1
      exact ⟨rfl, (ih h').2⟩
    | write h' last' _ =>
      obtain ⟨rfl, hz⟩ := List.append_inj' hlast rfl
      obtain rfl := (List.cons.inj hz).1
      obtain ⟨rfl, -⟩ := ih h'
      exact absurd last last'.not_idle
  | @write xs ws y z k r path h last hplace ih =>
    generalize hlast : xs ++ [z] = xs' at h'
    cases h' with
    | refl => simp at hlast
    | idle h' last' =>
      obtain ⟨rfl, hz⟩ := List.append_inj' hlast rfl
      obtain rfl := (List.cons.inj hz).1
      obtain ⟨rfl, -⟩ := ih h'
      exact absurd last' last.not_idle
    | write h' last' hplace' =>
      obtain ⟨rfl, hz⟩ := List.append_inj' hlast rfl
      obtain rfl := (List.cons.inj hz).1
      obtain ⟨rfl, rfl⟩ := ih h'
      obtain rfl := last.inj last'
      rw [hplace] at hplace'
      cases hplace'
      exact ⟨rfl, rfl⟩

/-- Only the index of a store changes. -/
theorem store (h : Writes base x xs ws y) :
    y.store.layout = x.store.layout ∧ y.store.keepJournals = x.store.keepJournals := by
  induction h with
  | refl => exact ⟨rfl, rfl⟩
  | idle _ last ih =>
    rw [last.store]
    exact ih
  | write _ last _ ih =>
    obtain ⟨e, -, hstore⟩ := last.entry
    rw [hstore]
    exact ih

/-- Records only leave the staging. -/
theorem pending (h : Writes base x xs ws y) {j : Kind} {id : ObjectId} {q : PendingRecord}
    (hq : y.staging.get? j id = some q) : x.staging.get? j id = some q := by
  induction h with
  | refl => exact hq
  | idle _ last ih =>
    rw [last.staging] at hq
    exact ih hq
  | write _ last _ ih =>
    rw [last.staging, Staging.get?_take] at hq
    split at hq
    · cases hq
    · exact ih hq

/-- Something was written exactly if the staging has changed. -/
theorem staging_eq_iff (h : Writes base x xs ws y) : y.staging = x.staging ↔ ws = [] := by
  constructor
  · intro hsame
    by_contra hws
    obtain ⟨k, id, hmissing, hpending⟩ : ∃ k id, y.staging.get? k id = none ∧
        x.staging.get? k id ≠ none := by
      clear hsame
      induction h with
      | refl => exact absurd rfl hws
      | idle _ last ih =>
        rw [last.staging]
        exact ih hws
      | @write xs ws y z k r path h last _ _ =>
        refine ⟨k, r.id, ?_, ?_⟩
        · rw [last.staging, Staging.get?_take, if_pos ⟨rfl, rfl⟩]
        · rw [h.pending last.pending]
          simp
    exact hpending (hsame ▸ hmissing)
  · rintro rfl
    generalize hnil : ([] : List WrittenRecord) = ws at h
    induction h with
    | refl => rfl
    | idle _ last ih => exact last.staging.trans (ih hnil)
    | write _ _ _ _ => simp at hnil

theorem documents (h : Writes base x xs ws y) :
    Keeps (IsContent x.host.files) x.host.files y.host.files := by
  induction h with
  | refl => exact .refl _ _
  | idle _ last ih => exact ih.trans (last.documents.mono fun _ hj => (hj.keeps ih).1)
  | write _ last _ ih => exact ih.trans (last.documents.mono fun _ hj => hj.keeps ih)

/-- The document of an id has come to the place of a path, where nothing was. -/
structure Brings (base : Location) (x y : Session) (path : Path) (dir : String) (id : ObjectId) :
    Prop where
  documents : IsDocumentDir dir
  proper : Proper x.store.layout.root (namesOf dir id.fileName)
  path : path = (x.store.layout.documentDir dir).join id.fileName
  absent : x.host.files.contentAt? (base ++ namesOf dir id.fileName) = none
  content : ∃ b, y.host.files.contentAt? (base ++ namesOf dir id.fileName) = some b

theorem Brings.keeps {path : Path} {dir : String} {id : ObjectId} (h : Brings base x y path dir id)
    (hkeeps : Keeps (IsContent y.host.files) y.host.files z.host.files) :
    Brings base x z path dir id where
  documents := h.documents
  proper := h.proper
  path := h.path
  absent := h.absent
  content := by
    obtain ⟨b, hb⟩ := h.content
    refine ⟨b, ?_⟩
    rw [hkeeps.content _ ⟨isSettled_namesOf base dir (isXml_fileName id), by simp [hb]⟩, hb]

theorem brings (h : Writes base x xs ws y) : ∀ w ∈ ws, ∃ dir id, Brings base x y w.path dir id := by
  induction h with
  | refl => simp
  | idle _ last ih =>
    intro w hw
    obtain ⟨dir, id, hbrings⟩ := ih w hw
    exact ⟨dir, id, hbrings.keeps (last.documents.mono fun _ hj => hj.1)⟩
  | @write xs ws y z k r path h last hplace ih =>
    intro w hw
    rcases List.mem_append.1 hw with hw | hw
    · obtain ⟨dir, id, hbrings⟩ := ih w hw
      exact ⟨dir, id, hbrings.keeps last.documents⟩
    obtain rfl := List.mem_singleton.1 hw
    obtain ⟨dir, hdir, hproper, hcomes⟩ := last.document
    rw [h.store.1] at hplace hproper
    obtain ⟨dir', hdir', rfl⟩ := Option.map_eq_some_iff.1 hplace
    obtain rfl := Option.some.inj (hdir.symm.trans hdir')
    refine ⟨dir, r.id, isDocumentDir_of_directory hdir, hproper, rfl, ?_, _, hcomes.content⟩
    -- what was there at the start would still be there
    refine Option.eq_none_iff_forall_ne_some.2 fun b hb => ?_
    have hkept := h.documents.content _
      ⟨isSettled_namesOf base dir (isXml_fileName r.id), by simp [hb]⟩
    rw [hb] at hkept
    exact absurd hkept (by simp [hcomes.absent])

/-- Each document that was written is there, and nothing was at its path before. -/
theorem new (h : Writes base x xs ws y) (hx : AnchoredAt base x) (hy : AnchoredAt base y) :
    ∀ w ∈ ws, x.host.files.has w.path = false ∧ y.host.files.isFile w.path = true := by
  intro w hw
  obtain ⟨dir, id, hbrings⟩ := h.brings w hw
  obtain ⟨b, hb⟩ := hbrings.content
  have hdir := hbrings.documents
  have hxml := isXml_fileName id
  rw [hbrings.path]
  constructor
  · rw [Bool.eq_false_iff]
    intro hhas
    have hnames := isName_namesOf hdir hxml
    unfold has at hhas
    cases hfind : x.host.files.find ((x.store.layout.documentDir dir).join id.fileName) with
    | error e =>
      rw [hfind] at hhas
      cases hhas
    | ok found =>
      obtain ⟨place, n⟩ := found
      obtain ⟨-, rfl, hnode⟩ := (hx.well.find_descend hx.root hnames).1 hfind
      cases n with
      | file b' =>
        have habsent := hbrings.absent
        rw [contentAt?_eq_some.2 hnode] at habsent
        cases habsent
      | directory =>
        have hkept := h.documents.directory _ hnode
        rw [contentAt?_eq_some.1 hb] at hkept
        cases hkept
  · have hproper := hbrings.proper
    rw [← h.store.1] at hproper ⊢
    exact (isFile_document hy hdir hxml).2 ⟨hproper, b, hb⟩

end Writes

end Session

end AudioProject
