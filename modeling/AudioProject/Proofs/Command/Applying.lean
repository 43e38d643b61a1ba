import AudioProject.Command.Tasks
import AudioProject.Proofs.Batch.Order

/-
  Plans that are applied. Whether a project can be locked does not depend on what is done under the
  lock (`Context.lockedUnless_cases`), and keys are minted first: a key that comes twice ends the
  command before anything is staged (`refuses_of_twice`). A plan whose keys come once each is
  wired as its references say, whatever the order of its entries: `plans_are_wired`.
-/

namespace AudioProject.Command

open Batch Console

variable {x : Context} {path : Path} {dryRun : Bool} {p : Batch.Plan} {c c' : Console}

/-! ## The lock -/

/-- Either the lock is not had, whatever the job; or the job starts where it has been taken, and
whatever comes of it, the lock is given back. -/
theorem Context.locked_cases (x : Context) (c : Console) :
    (∃ e c₁, ∀ {α : Type} (job : Job α), x.locked job c = .error e c₁) ∨
      ∃ place c₁, ∀ {α : Type} (job : Job α), x.locked job c = match job c₁ with
        | .ok a c₂ => .ok a { c₂ with host := Lock.release place c₂.host }
        | .error e c₂ => .error e { c₂ with host := Lock.release place c₂.host } := by
  cases hfile : c.host.files.isFile x.layout.workspace with
  | false =>
    refine Or.inl ⟨.noProject x.layout.workspace, c, fun job => ?_⟩
    unfold Context.locked
    rw [Action.bind_of_ok (show (get : Job Console) c = .ok c c from rfl), hfile]
    rfl
  | true =>
    cases hlock : onHost Failure.lock (Lock.acquire x.layout) c with
    | error e c₁ =>
      refine Or.inl ⟨e, c₁, fun job => ?_⟩
      unfold Context.locked
      rw [Action.bind_of_ok (show (get : Job Console) c = .ok c c from rfl), hfile]
      exact Action.bind_of_error hlock _
    | ok place c₁ =>
      refine Or.inr ⟨place, c₁, fun job => ?_⟩
      unfold Context.locked
      rw [Action.bind_of_ok (show (get : Job Console) c = .ok c c from rfl), hfile]
      refine (Action.bind_of_ok hlock _).trans ?_
      cases hjob : job c₁ with
      | ok a c₂ => exact Action.bind_of_ok ((Action.outcome_eq_ok (r := .ok a)).2 hjob) _
      | error e c₂ => exact Action.bind_of_ok ((Action.outcome_eq_ok (r := .error e)).2 hjob) _

/-- The same, where a rehearsal takes no lock. What is done afterwards leaves the files alone. -/
theorem Context.lockedUnless_cases (x : Context) (dryRun : Bool) (c : Console) :
    (∃ e c₁, ∀ {α : Type} (job : Job α), x.lockedUnless dryRun job c = .error e c₁) ∨
      ∃ (finish : Host → Host) (c₁ : Console), (∀ h, (finish h).files = h.files) ∧
        ∀ {α : Type} (job : Job α), x.lockedUnless dryRun job c = match job c₁ with
          | .ok a c₂ => .ok a { c₂ with host := finish c₂.host }
          | .error e c₂ => .error e { c₂ with host := finish c₂.host } := by
  unfold Context.lockedUnless
  cases dryRun with
  | true =>
    refine Or.inr ⟨id, c, fun _ => rfl, fun job => ?_⟩
    rw [if_pos rfl]
    cases job c <;> rfl
  | false =>
    simp only [Bool.false_eq_true, if_false]
    rcases x.locked_cases c with h | ⟨place, c₁, h⟩
    · exact Or.inl h
    · exact Or.inr ⟨Lock.release place, c₁, fun _ => rfl, h⟩

/-! ## Keys that come twice -/

theorem Console.lookUp_eq {ε α : Type} (wrap : ε → Failure) (f : FileTree → Except ε α)
    (c : Console) : lookUp wrap f c = match f c.host.files with
      | .ok a => .ok a c
      | .error e => .error (wrap e) c := by
  unfold lookUp onHost Host.lookUp Action.within Action.reading
  dsimp only
  cases f c.host.files <;> rfl

theorem Console.after_lookUp {ε α : Type} (wrap : ε → Failure) (f : FileTree → Except ε α)
    (c : Console) : (lookUp wrap f).after c = c := by
  unfold Action.after
  rw [Console.lookUp_eq]
  cases f c.host.files <;> rfl

theorem eq_of_loadPlan (h : loadPlan path c = .ok p c') : c' = c := by
  obtain ⟨text, c₁, hread, hplan⟩ := Action.bind_eq_ok.1 h
  have hstill := Console.after_lookUp (Failure.readPlan path) (fun t => t.readText path) c
  rw [Action.after_of_ok hread] at hstill
  subst hstill
  cases hparse : Batch.Plan.ofText? text with
  | some q =>
    rw [hparse] at hplan
    cases hplan
    rfl
  | none =>
    rw [hparse] at hplan
    cases hplan

/-- Applying the plan fails before anything is staged, and nothing is written but the lock file. If
the project can be locked and opened, a key that comes twice is to blame. -/
def Refuses (x : Context) (path : Path) (dryRun : Bool) (p : Batch.Plan) (c : Console) : Prop :=
  ∃ e c', apply x path dryRun c = .error e c' ∧
    c'.host.files = ((x.lockedUnless dryRun (pure ())).after c).host.files ∧
    ∀ s c₂, x.lockedUnless dryRun x.openStore c = .ok s c₂ →
      ∃ key, e = .batch (.duplicateKey key) ∧ 2 ≤ p.keys.count key

theorem exists_twice (h : ¬ p.keys.Nodup) (ids : IdSupply) :
    ∃ key ids', mintKeys ∅ p.keys ids = .error (.duplicateKey key) ids' ∧
      2 ≤ p.keys.count key := by
  cases hmint : mintKeys ∅ p.keys ids with
  | ok keys ids' => exact absurd (mintKeys_empty_eq_ok.1 hmint).1 h
  | error e ids' =>
    obtain ⟨key, rfl, hcount⟩ := mintKeys_eq_error hmint
    exact ⟨key, ids', rfl, hcount⟩

/-- What is to be done with keys is not done where one comes twice. -/
theorem fails_at_keys (h : ¬ p.keys.Nodup) (x : Context) (next : Store → Keys → Job Unit)
    (c : Console) : ∃ e c', (do
        let s ← x.openStore
        let keys ← onHost Failure.batch (Host.onIds id (mintKeys ∅ p.keys))
        next s keys : Job Unit) c = .error e c' ∧ c'.host.files = c.host.files ∧
      ∀ s c₂, x.openStore c = .ok s c₂ →
        ∃ key, e = .batch (.duplicateKey key) ∧ 2 ≤ p.keys.count key := by
  have hstill : x.openStore.after c = c := Console.after_lookUp _ _ c
  cases hopen : x.openStore c with
  | error e c₁ =>
    rw [Action.after_of_error hopen] at hstill
    subst hstill
    refine ⟨e, _, Action.bind_of_error hopen _, rfl, fun s c₂ hok => ?_⟩
    cases hok
  | ok s c₁ =>
    rw [Action.after_of_ok hopen] at hstill
    subst hstill
    obtain ⟨key, ids', hmint, hcount⟩ := exists_twice h c₁.host.ids
    have hids : Host.onIds id (mintKeys ∅ p.keys) c₁.host =
        .error (.duplicateKey key) { c₁.host with ids := ids' } := by
      unfold Host.onIds Action.within
      rw [hmint]
      rfl
    have hfail : onHost Failure.batch (Host.onIds id (mintKeys ∅ p.keys)) c₁ =
        .error (.batch (.duplicateKey key)) { c₁ with host := { c₁.host with ids := ids' } } := by
      unfold onHost Action.within
      rw [hids]
    refine ⟨_, _, (Action.bind_of_ok hopen _).trans (Action.bind_of_error hfail _), rfl, ?_⟩
    intro _ _ _
    exact ⟨key, rfl, hcount⟩

theorem refuses_of_twice (hload : loadPlan path c = .ok p c') (h : ¬ p.keys.Nodup) (x : Context)
    (dryRun : Bool) : Refuses x path dryRun p c := by
  obtain rfl := eq_of_loadPlan hload
  unfold Refuses
  have happly : apply x path dryRun c' = x.lockedUnless dryRun (do
      let s ← x.openStore
      let keys ← onHost Failure.batch (Host.onIds id (mintKeys ∅ p.keys))
      let g ← onHost Failure.batch (Host.onIds id (stagePlan p keys s))
      let rs ← lookUp Failure.batch fun _ => requests p keys (path.parent?.getD ⟨""⟩)
      if dryRun then rehearse g rs
      else
        let s ← commitStaged s g
        makeEvents s x.config.probeMedia 0 rs.length rs) c' := Action.bind_of_ok hload _
  rw [happly]
  unfold Action.after
  rcases x.lockedUnless_cases dryRun c' with ⟨e, c₁, hcase⟩ | ⟨finish, c₁, hfinish, hcase⟩
  · simp only [hcase]
    exact ⟨e, c₁, rfl, rfl, fun _ _ hok => by cases hok⟩
  · obtain ⟨e, c₂, hjob, hfiles, hopen⟩ := fails_at_keys h x (fun s keys => do
      let g ← onHost Failure.batch (Host.onIds id (stagePlan p keys s))
      let rs ← lookUp Failure.batch fun _ => requests p keys (path.parent?.getD ⟨""⟩)
      if dryRun then rehearse g rs
      else
        let s ← commitStaged s g
        makeEvents s x.config.probeMedia 0 rs.length rs) c₁
    refine ⟨e, _, (hcase _).trans (by rw [hjob]), ?_, fun s c₃ hok => ?_⟩
    · rw [hcase]
      show (finish c₂.host).files = (finish c₁.host).files
      rw [hfinish, hfinish, hfiles]
    · rw [hcase] at hok
      cases hstore : x.openStore c₁ with
      | ok s' c₄ => exact hopen s' c₄ hstore
      | error e' c₄ =>
        rw [hstore] at hok
        cases hok

/-! ## Plans -/

/-- If the keys of a plan come once each and its records can be staged, each record stands for its
entry, and requests name what their entries refer to. If no id is minted twice, all of them are
different. In another order the entries have the same records and requests, with other ones of the
minted ids, if these are new. If a key comes twice, nothing is staged. -/
theorem plans_are_wired (p : Batch.Plan) (s : Store) (ids : IdSupply) :
    (p.keys.Nodup → ∃ keys, mintKeys ∅ p.keys ids = .ok keys (p.afterKeys ids) ∧
      keys.keys = p.keys ∧ keys.values = ids.minted (p.afterKeys ids) ∧
      ∀ g ids', stagePlan p keys s (p.afterKeys ids) = .ok g ids' →
        Wired p s keys g ∧ ((ids.minted ids').Nodup → Distinct p s keys g) ∧
        (∀ dir rs, requests p keys dir = .ok rs → List.Forall₂ (Asks keys dir) p.events rs) ∧
        (MintsNew p s ids ids' → ∀ p', p.Rearranged p' → ∃ keys' g' ρ,
          Reordered p p' s ids (p.afterKeys ids) ids' keys keys' g g' ρ)) ∧
    (¬ p.keys.Nodup →
      (∃ key ids', mintKeys ∅ p.keys ids = .error (.duplicateKey key) ids' ∧
        2 ≤ p.keys.count key) ∧
      ∀ x path dryRun c c', loadPlan path c = .ok p c' → Refuses x path dryRun p c) := by
  refine ⟨fun honce => ?_, fun htwice => ⟨exists_twice htwice ids, ?_⟩⟩
  · let keys : Keys := ⟨withIds ids p.keys, by rwa [map_fst_withIds]⟩
    have hmint : mintKeys ∅ p.keys ids = .ok keys (p.afterKeys ids) :=
      mintKeys_empty_eq_ok.2 ⟨honce, rfl, rfl⟩
    refine ⟨keys, hmint, map_fst_withIds ids p.keys, p.map_snd_withIds ids, ?_⟩
    intro g ids' hstage
    obtain ⟨qs, hbuilt, hstageable, rfl, -, rfl⟩ := stages_iff.1 ⟨hmint, hstage⟩
    refine ⟨hbuilt.wired hstageable, hbuilt.distinct hstageable, fun dir rs => requests_eq_ok.1,
      fun hnew p' hp => ?_⟩
    obtain ⟨ρ, keys', g', h⟩ := hbuilt.reordered hstageable hnew hp
    exact ⟨keys', g', ρ, h⟩
  · intro x path dryRun c c' hload
    exact refuses_of_twice hload htwice x dryRun

/-- A plan whose entries refer to later ones, to other tables and to what exists, with a key that
looks like an id. -/
def tour : Batch.Plan where
  eventFolders := [⟨some "raid", "Raid", some "boss"⟩, ⟨some "boss", "Boss", none⟩,
    ⟨none, "Extras", some "lost"⟩]
  bankFolders := [⟨some "\x7bP\x7d", "Packs", none⟩]
  banks := [⟨some "voices", "Voices", some "\x7bP\x7d"⟩]
  buses := [⟨none, "Choir", some "hall"⟩, ⟨some "hall", "Hall", none⟩]
  assetFolders := [⟨some "takes", ⟨["takes"], by decide⟩⟩]
  events := [⟨some "howl", "roar", "Howl", "raid", "voices", "hall", []⟩,
    ⟨some "roar", "toll", "Roar", "boss", "voices", "mixer", []⟩]

/-- The tables of the plan backwards. -/
def tourBack : Batch.Plan where
  eventFolders := tour.eventFolders.reverse
  bankFolders := tour.bankFolders.reverse
  banks := tour.banks.reverse
  buses := tour.buses.reverse
  assetFolders := tour.assetFolders.reverse
  events := tour.events.reverse

theorem rearranged_tourBack : tour.Rearranged tourBack where
  eventFolders := (List.reverse_perm _).symm
  bankFolders := (List.reverse_perm _).symm
  banks := (List.reverse_perm _).symm
  buses := (List.reverse_perm _).symm
  assetFolders := (List.reverse_perm _).symm
  events := (List.reverse_perm _).symm

def tourKeys : Keys := ⟨withIds (.ofStart 0) tour.keys, by decide +kernel⟩

theorem mintsNew_tour : MintsNew tour Store.loft (.ofStart 0)
    (tour.afterRecords Store.loft (.ofStart 0)) where
  nodup := by decide +kernel
  store := by
    have hroots : ∀ k ∈ Kind.all, Store.loft.root k ∉
        (IdSupply.ofStart 0).minted (tour.afterRecords Store.loft (.ofStart 0)) := by decide +kernel
    have hstore : ∀ id ∈ (IdSupply.ofStart 0).minted (tour.afterRecords Store.loft (.ofStart 0)),
        Store.loft.containsAny id = false := by decide +kernel
    exact fun id hid => ⟨hstore id hid, fun k hk => hroots k (Kind.mem_all k) (hk ▸ hid)⟩
  references := by decide +kernel

theorem requests_tour : ∃ rs, requests tour tourKeys ⟨"/p"⟩ = .ok rs := by
  have hsome : (requests tour tourKeys ⟨"/p"⟩).toOption.isSome = true := by decide +kernel
  cases h : requests tour tourKeys ⟨"/p"⟩ with
  | ok rs => exact ⟨rs, rfl⟩
  | error e =>
    rw [h] at hsome
    cases hsome

/-- A key that comes in two tables. -/
def twice : Batch.Plan where
  banks := [⟨some "k", "A", none⟩]
  buses := [⟨some "k", "B", none⟩]

def twiceText : String := "[[bank]]\nkey = 'k'\nname = 'A'\n[[bus]]\nkey = 'k'\nname = 'B'\n"

/-- The plan is in a file of the project. -/
def twiceConsole : Console where
  host := { Store.loftHost with
    files := Store.loftFiles.put ["p", "twice.toml"] (.file twiceText.toUTF8) }

theorem loadPlan_twice : loadPlan ⟨"/p/twice.toml"⟩ twiceConsole = .ok twice twiceConsole := by
  have hread : twiceConsole.host.files.readText ⟨"/p/twice.toml"⟩ = .ok twiceText := by
    decide +kernel
  have hparse : Batch.Plan.ofText? twiceText = some twice := by decide +kernel
  have hload : lookUp (Failure.readPlan ⟨"/p/twice.toml"⟩)
      (fun t => t.readText ⟨"/p/twice.toml"⟩) twiceConsole = .ok twiceText twiceConsole := by
    rw [Console.lookUp_eq, hread]
  refine (Action.bind_of_ok hload _).trans ?_
  rw [hparse]
  rfl

theorem plans_are_wired_tour :
    tour.keys.Nodup ∧
      (∃ keys g, stagePlan tour keys Store.loft (tour.afterKeys (.ofStart 0)) =
          .ok g (tour.afterRecords Store.loft (.ofStart 0)) ∧ Wired tour Store.loft keys g ∧
        Distinct tour Store.loft keys g ∧
        (∃ rs, requests tour keys ⟨"/p"⟩ = .ok rs ∧
          List.Forall₂ (Asks keys ⟨"/p"⟩) tour.events rs) ∧
        ∃ keys' g' ρ, Reordered tour tourBack Store.loft (.ofStart 0) (tour.afterKeys (.ofStart 0))
          (tour.afterRecords Store.loft (.ofStart 0)) keys keys' g g' ρ) ∧
      ¬ twice.keys.Nodup ∧
      ∀ dryRun, Refuses ⟨⟨"/p"⟩, {}⟩ ⟨"/p/twice.toml"⟩ dryRun twice twiceConsole := by
  have honce : tour.keys.Nodup := by decide
  have htwice : ¬ twice.keys.Nodup := by decide
  obtain ⟨keys, hmint, -, -, hstages⟩ := (plans_are_wired tour Store.loft (.ofStart 0)).1 honce
  obtain rfl : keys = tourKeys := OrderedMap.ext (mintKeys_empty_eq_ok.1 hmint).2.1
  have hok : Action.isOk (stagePlan tour tourKeys Store.loft (tour.afterKeys (.ofStart 0))) =
      true := by decide +kernel
  obtain ⟨g, ids', hstage⟩ := Action.isOk_iff.1 hok
  obtain ⟨-, -, -, -, -, rfl⟩ := stages_iff.1 ⟨hmint, hstage⟩
  obtain ⟨hwired, hdistinct, hasks, hreordered⟩ := hstages g _ hstage
  obtain ⟨rs, hrs⟩ := requests_tour
  refine ⟨honce, ⟨tourKeys, g, hstage, hwired, hdistinct mintsNew_tour.nodup,
    ⟨rs, hrs, hasks _ rs hrs⟩, hreordered mintsNew_tour tourBack rearranged_tourBack⟩, htwice,
    fun dryRun => ?_⟩
  exact ((plans_are_wired twice Store.loft (.ofStart 0)).2 htwice).2 _ _ dryRun _ _ loadPlan_twice

end AudioProject.Command
