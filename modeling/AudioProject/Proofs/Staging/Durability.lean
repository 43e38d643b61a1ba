import AudioProject.Proofs.Staging.ParentFirst
import AudioProject.Proofs.Store.Reopening

/-
  What is committed is on the disk: a project that is opened again gives the answers of the store
  in memory. The builders make records with one object of a kind each, so a document that comes
  adds one entry to one index (`PendingRecord.Plain`); and a path that a pending asset folder has
  taken stays its own until it is committed (`Orderly`), so the entry shares neither its id nor its
  path with any other. Then a link keeps the store as the documents say (`Durable.link`).
-/

namespace AudioProject

open FileTree Store Staging

/-! ## Records of the builders -/

namespace PendingRecord

/-- Records as the builders make them, under any id. -/
inductive Built : PendingRecord → Prop where
  | eventFolder (name : String) (parent : ObjectId) (ids : IdSupply) :
    Built (eventFolder name parent ids).1
  | bankFolder (name : String) (parent : ObjectId) (ids : IdSupply) :
    Built (bankFolder name parent ids).1
  | bank (name : String) (parent : ObjectId) (ids : IdSupply) : Built (bank name parent ids).1
  | bus (name : String) (output : ObjectId) (ids : IdSupply) : Built (bus name output ids).1
  | assetFolder (path : AssetPath) (ids : IdSupply) : Built (assetFolder path ids).1
  | withId {r : PendingRecord} (h : Built r) (id : ObjectId) : Built (r.withId id)

/-- Only the first object belongs to a kind, and only an asset folder names a path. -/
structure Plain (r : PendingRecord) : Prop where
  siblings : ∀ o ∈ r.siblings, ∀ k, IndexEntry.ofObject? k o.named = none
  path : r.object.objectClass ≠ .assetFolder → r.assetPath? = none

theorem Plain.of_no_siblings {r : PendingRecord} (hnil : r.siblings = [])
    (hpath : r.object.objectClass ≠ .assetFolder → r.assetPath? = none) : r.Plain := by
  refine ⟨?_, hpath⟩
  rw [hnil]
  simp

theorem Built.plain {r : PendingRecord} (h : r.Built) : r.Plain := by
  induction h with
  | eventFolder | bankFolder | bank => exact .of_no_siblings rfl fun _ => rfl
  | assetFolder => exact .of_no_siblings rfl fun hnot => absurd rfl hnot
  | bus =>
    refine ⟨fun o ho k => ?_, fun _ => rfl⟩
    have hclass : o.objectClass ∈
        [ObjectClass.mixerBusEffectChain, .mixerBusPanner, .mixerBusFader] := by
      simp only [PendingRecord.bus, List.mem_cons, List.not_mem_nil, or_false] at ho
      rcases ho with rfl | rfl | rfl <;> simp [Object.setEdge]
    have hall : ∀ c ∈ [ObjectClass.mixerBusEffectChain, .mixerBusPanner, .mixerBusFader],
        ∀ k ∈ Kind.all, IndexEntry.masterClass? k ≠ some (.ofName c.name) ∧
          k.accepts (.ofName c.name) = false := by decide
    obtain ⟨hmaster, haccepts⟩ := hall _ hclass k k.mem_all
    unfold IndexEntry.ofObject? IndexEntry.position? Object.named
    rw [if_neg hmaster, haccepts]
    rfl
  | withId _ _ ih => exact ⟨ih.siblings, ih.path⟩

end PendingRecord

/-! ## What is staged -/

namespace Staging

variable {s : Store} {g g' : Staging} {k : Kind} {r : PendingRecord} {e : IndexEntry}

/-- Pending records are plain, each pending bus has an output, and the paths of the pending asset
folders are their own. -/
structure Orderly (s : Store) (g : Staging) : Prop where
  plain : ∀ k id r, g.get? k id = some r → r.Plain
  output : ∀ id r, g.get? .bus id = some r → ∃ p, r.parent? .bus = some p
  reserved : ∀ id r p, g.get? .assetFolder id = some r → r.assetPath? = some p →
    g.paths.get? p = some id
  free : ∀ id r p, g.get? .assetFolder id = some r → r.assetPath? = some p →
    (s.assetFolderAt? p).isSome = false

theorem Orderly.empty (s : Store) : Orderly s {} := by
  constructor
  · intro k id r h
    rw [get?_empty] at h
    cases h
  · intro id r h
    cases h
  · intro id r p h
    cases h
  · intro id r p h
    cases h

theorem Orderly.stage (h : Orderly s g) (hplain : r.Plain) (hstage : g.stage s k r = .ok g') :
    Orderly s g' := by
  obtain ⟨-, houtput, -, path, hpath, rfl⟩ := stage_passes_iff.1 hstage
  have hnew : ∀ {j id q}, (g.add k r path).get? j id = some q →
      (k = j ∧ r.id = id ∧ r = q) ∨ g.get? j id = some q := by
    intro j id q hq
    rw [get?_add] at hq
    split at hq
    · next hsame => exact Or.inl ⟨hsame.1, hsame.2, Option.some.inj hq⟩
    · exact Or.inr hq
  constructor
  · intro j id q hq
    rcases hnew hq with ⟨-, -, rfl⟩ | hold
    · exact hplain
    · exact h.plain j id q hold
  · intro id q hq
    rcases hnew hq with ⟨rfl, -, rfl⟩ | hold
    · exact Option.ne_none_iff_exists'.1 fun hnone => houtput ⟨rfl, hnone⟩
    · exact h.output id q hold
  · intro id q p hq hp
    rcases pathToTake_eq_ok hpath with ⟨-, p', rfl, hp', hholder⟩ | ⟨hk, rfl⟩
    · show (g.paths.insert p' r.id).get? p = some id
      rw [OrderedMap.get?_insert]
      rcases hnew hq with ⟨-, rfl, rfl⟩ | hold
      · rw [if_pos (Option.some.inj (hp'.symm.trans hp))]
      · have hother := h.reserved id q p hold hp
        rw [if_neg, hother]
        rintro rfl
        rw [(holder?_eq_none.1 hholder).2] at hother
        cases hother
    · rcases hnew hq with ⟨rfl, -, -⟩ | hold
      · exact absurd rfl hk
      · exact h.reserved id q p hold hp
  · intro id q p hq hp
    rcases hnew hq with ⟨rfl, -, rfl⟩ | hold
    · rcases pathToTake_eq_ok hpath with ⟨-, p', -, hp', hholder⟩ | ⟨hk, -⟩
      · rw [← Option.some.inj (hp'.symm.trans hp)]
        exact (holder?_eq_none.1 hholder).1
      · exact absurd rfl hk
    · exact h.free id q p hold hp

/-- A record of another kind than asset folders names no path. -/
theorem Orderly.kind_of_path (h : Orderly s g) (hfits : Fits s g) (hr : g.get? k r.id = some r)
    {p : AssetPath} (hp : r.assetPath? = some p) : k = .assetFolder := by
  have hclass : r.object.objectClass = .assetFolder := Decidable.byContradiction fun hne => by
    rw [(h.plain k r.id r hr).path hne] at hp
    cases hp
  have haccepts := (hfits.admitted k r.id r hr).accepts
  rw [hclass] at haccepts
  exact (Option.some.inj (of_decide_eq_true haccepts)).symm

/-- A record that is taken out sets free its own path and no other. -/
theorem Orderly.commit (h : Orderly s g) (hfits : Fits s g) (hr : g.get? k r.id = some r)
    (he : IndexEntry.ofObject? k r.object = some e) : Orderly (s.insert k e) (g.take k r) := by
  have hold : ∀ {j id q}, (g.take k r).get? j id = some q →
      ¬ (k = j ∧ r.id = id) ∧ g.get? j id = some q := by
    intro j id q hq
    rw [get?_take] at hq
    split at hq
    · cases hq
    · next hne => exact ⟨hne, hq⟩
  -- another pending asset folder has another path
  have hother : ∀ {id q p}, (g.take k r).get? .assetFolder id = some q → q.assetPath? = some p →
      r.assetPath? ≠ some p := by
    intro id q p hq hp hsame
    obtain ⟨hne, hpending⟩ := hold hq
    obtain rfl := h.kind_of_path hfits hr hsame
    have hid := (h.reserved r.id r p hr hsame).symm.trans (h.reserved id q p hpending hp)
    exact hne ⟨rfl, Option.some.inj hid⟩
  constructor
  · intro j id q hq
    exact h.plain j id q (hold hq).2
  · intro id q hq
    exact h.output id q (hold hq).2
  · intro id q p hq hp
    have hreserved := h.reserved id q p (hold hq).2 hp
    cases hpath : r.assetPath? with
    | none =>
      simp only [take, hpath]
      exact hreserved
    | some p' =>
      simp only [take, hpath]
      rw [OrderedMap.get?_erase, if_neg, hreserved]
      rintro rfl
      exact hother hq hp hpath
  · intro id q p hq hp
    have hentry := assetPath?_of_admitted (hfits.admitted k r.id r hr) he
    rw [assetFolderAt?_insert, h.free id q p (hold hq).2 hp, Bool.or_false]
    refine decide_eq_false ?_
    rintro ⟨rfl, hsame⟩
    rw [hentry, if_pos rfl] at hsame
    exact hother hq hp hsame

end Staging

namespace IndexEntry

variable {k : Kind} {r : PendingRecord} {e : IndexEntry}

/-- An object with a parent is no root. -/
theorem isRoot_of_parent (he : ofObject? k r.object = some e)
    (haccepts : k.accepts r.object.objectClass = true) {p : ObjectId} (hp : r.parent? k = some p) :
    e.isRoot = false := by
  obtain ⟨position, hposition, rfl⟩ := Option.map_eq_some_iff.1 he
  unfold position? at hposition
  rw [if_neg (masterClass?_ne haccepts), if_pos haccepts] at hposition
  unfold PendingRecord.parent? at hp
  obtain ⟨edge, hedge, hparent⟩ := Option.bind_eq_some_iff.1 hp
  rw [hedge] at hposition
  dsimp only at hposition
  rw [hparent] at hposition
  cases hposition
  rfl

/-- Of the objects of a plain record, only the first has an entry. -/
theorem filterMap_objects (he : ofObject? k r.object = some e) (hplain : r.Plain) :
    (r.objects.map Object.named).filterMap (ofObject? k) = [e] := by
  have hrest : (r.siblings.map Object.named).filterMap (ofObject? k) = [] := by
    rw [List.filterMap_eq_nil_iff]
    intro o ho
    obtain ⟨o', ho', rfl⟩ := List.mem_map.1 ho
    exact hplain.siblings o' ho' k
  unfold PendingRecord.objects
  rw [List.map_cons, named_of_ofObject? he, List.filterMap_cons_some he, hrest]

end IndexEntry

/-! ## Moments -/

namespace Session

variable {base : Location} {x y : Session}

/-- The store has what the documents say, and what is staged will not change that. -/
structure Durable (base : Location) (x : Session) : Prop where
  anchored : AnchoredAt base x
  contents : ∃ c, Holds x.host.files x.store.layout c ∧ Restates c x.store
  fits : Fits x.store x.staging
  orderly : Orderly x.store x.staging

/-- The document of a record that is written is read between those before it and those behind. -/
theorem Placed.holds {k : Kind} {r : PendingRecord} (h : Placed base k r x y)
    (hx : AnchoredAt base x) (hy : AnchoredAt base y) {c : Contents}
    (hholds : Holds x.host.files x.store.layout c) :
    ∃ dir path front back, r.object.objectClass.directory? = some dir ∧ dir ∈ k.directories ∧
      c.documents dir = front ++ back ∧
      Holds y.host.files y.store.layout
        (c.put dir (front ++ (path, ⟨x.store.model, r.objects.map Object.named⟩) :: back)) := by
  obtain ⟨e, he, hstore⟩ := h.entry
  obtain ⟨dir, hdir, -, hcomes⟩ := h.document
  have hlayout : y.store.layout = x.store.layout := by
    rw [hstore]
    rfl
  have hreads := h.reads hy hdir
  have hmem := IndexEntry.directory_mem he hdir
  unfold AnchoredAt at hx hy
  rw [hlayout] at hy hreads
  obtain ⟨front, back, hold, hholds'⟩ :=
    hholds.comes hx hy hmem (isXml_fileName r.id) hcomes hreads
  rw [← hlayout] at hholds'
  exact ⟨dir, _, front, back, hdir, hmem, hold, hholds'⟩

theorem Durable.link (h : Durable base x) (hlink : Link base x y) (hy : AnchoredAt base y) :
    Durable base y := by
  obtain ⟨c, hholds, hrestates⟩ := h.contents
  cases hlink with
  | idle hidle =>
    refine ⟨hy, ⟨c, ?_, ?_⟩, ?_, ?_⟩
    · unfold AnchoredAt at hy
      rw [hidle.store] at hy ⊢
      exact hholds.idle h.anchored hy hidle.documents
    · rw [hidle.store]
      exact hrestates
    · rw [hidle.store, hidle.staging]
      exact h.fits
    · rw [hidle.store, hidle.staging]
      exact h.orderly
  | @placed k r hplaced _ =>
    obtain ⟨e, he, hstore⟩ := hplaced.entry
    obtain ⟨dir, path, front, back, -, hmem, hold, hholds'⟩ := hplaced.holds h.anchored hy hholds
    have hadmitted := h.fits.admitted k r.id r hplaced.pending
    have hid := IndexEntry.id_ofObject? he
    refine ⟨hy, ⟨_, hholds', ?_⟩, ?_, ?_⟩
    · rw [hstore]
      refine hrestates.comes hmem hold ?_ ?_ ?_ ?_
      · exact IndexEntry.filterMap_objects he (h.orderly.plain k r.id r hplaced.pending)
      · rw [hid]
        exact h.fits.fresh k r.id r hplaced.pending k
      · intro p hp
        rw [assetPath?_of_admitted hadmitted he] at hp
        split at hp
        · next hk =>
          subst hk
          rw [← assetFolderAt?_isSome]
          exact h.orderly.free r.id r p hplaced.pending hp
        · cases hp
      · rintro rfl
        obtain ⟨p, hp⟩ := h.orderly.output r.id r hplaced.pending
        exact IndexEntry.isRoot_of_parent he hadmitted.accepts hp
    · rw [hstore, hplaced.staging]
      exact h.fits.commit hplaced.pending hid
    · rw [hstore, hplaced.staging]
      exact h.orderly.commit h.fits hplaced.pending he

theorem durable_of_load {host : Host} {l : Layout} {keep : Bool} {s : Store}
    (hopen : load host.files l keep = .ok s) (hwell : host.files.WellFormed) :
    ∃ base, Durable base ⟨host, s, {}⟩ := by
  obtain ⟨rfl, -, c, hholds, hpresents⟩ := load_eq_ok_iff.1 hopen
  obtain ⟨base, hanchored⟩ := exists_anchored hwell hholds
  exact ⟨base, hanchored, ⟨c, hholds, hpresents.restates⟩, .empty s, .empty s⟩

theorem Run.durable (h : Run (Restaged fun _ r => r.Built) x y) (hx : Durable base x) :
    Durable base y := by
  induction h with
  | refl => exact hx
  | restage _ hg ih =>
    refine ⟨ih.anchored, ih.contents, hg.fits ih.fits, ?_⟩
    cases hg with
    | stage hbuilt hstage => exact ih.orderly.stage hbuilt.plain hstage
    | discard => exact .empty _
  | outside _ host hfiles ih =>
    obtain ⟨c, hholds, hrestates⟩ := ih.contents
    refine ⟨?_, ⟨c, ?_, hrestates⟩, ih.fits, ih.orderly⟩
    · unfold AnchoredAt
      rw [hfiles]
      exact ih.anchored
    · rw [hfiles]
      exact hholds
  | commit _ ih =>
    exact (trail_commitAll ih.anchored ih.fits.keyed).keeps
      (fun hlink hy h => h.link hlink hy) ih

end Session

theorem Store.Growth.settings {s s' : Store} (h : s.Growth s') :
    s'.layout = s.layout ∧ s'.keepJournals = s.keepJournals := by
  induction h with
  | refl => exact ⟨rfl, rfl⟩
  | insert _ _ _ ih => exact ih

open Session

/-- After any run of staging records of the builders and committing them, whatever the commits came
to, the project on the disk can be opened, and what is opened answers as the store in memory. -/
theorem reopening_agrees {host : Host} {l : Layout} {keep : Bool} {s : Store}
    (hopen : load host.files l keep = .ok s) (hwell : host.files.WellFormed) {x : Session}
    (hrun : Run (Restaged fun _ r => r.Built) ⟨host, s, {}⟩ x) :
    ∃ s', load x.host.files l keep = .ok s' ∧ Store.Alike x.store s' := by
  obtain ⟨base, hfirst⟩ := durable_of_load hopen hwell
  obtain ⟨c, hholds, hrestates⟩ := (hrun.durable hfirst).contents
  obtain ⟨hlayout, hkeep⟩ := (hrun.growth (Fits.empty s)).settings
  obtain ⟨rfl, rfl, -⟩ := load_eq_ok_iff.1 hopen
  have hload := load_of_restates hholds hrestates
  rwa [hlayout, hkeep] at hload

/-! ### One record of each sort, under readable ids -/

def hall : PendingRecord :=
  (PendingRecord.eventFolder "Hall" loft.masters.eventFolder (.ofStart 0)).1.withId
    ⟨"hall", by decide⟩

def props : AssetPath := ⟨["props"], by decide⟩

def shelf : PendingRecord :=
  (PendingRecord.assetFolder props (.ofStart 0)).1.withId ⟨"shelf", by decide⟩

def reverb : PendingRecord :=
  (PendingRecord.bus "Reverb" loft.masterBus (.ofStart 0)).1.withId ⟨"reverb", by decide⟩

/-- The project after a commit of all three. -/
def furnished : Session := commitAll.after ⟨loftHost, loft,
  ((({} : Staging).add .eventFolder hall none).add .assetFolder shelf (some props)).add .bus reverb
    none⟩

theorem run_furnished : Run (Restaged fun _ r => r.Built) ⟨loftHost, loft, {}⟩ furnished :=
  .commit (.restage (.restage (.restage .refl
    (.stage (k := .eventFolder) (r := hall) (.withId (.eventFolder _ _ _) _) rfl))
    (.stage (k := .assetFolder) (r := shelf) (.withId (.assetFolder _ _) _) rfl))
    (.stage (k := .bus) (r := reverb) (.withId (.bus _ _ _) _) rfl))

theorem reopening_agrees_furnished :
    Run (Restaged fun _ r => r.Built) ⟨loftHost, loft, {}⟩ furnished ∧
      furnished.store.contains .eventFolder hall.id = true ∧
      (furnished.store.assetFolderAt? props).map IndexEntry.id = some shelf.id ∧
      furnished.store.parent? .bus reverb.id = some loft.masterBus ∧
      ∃ s', load furnished.host.files loft.layout loft.keepJournals = .ok s' ∧
        Store.Alike furnished.store s' := by
  have hopen : load loftHost.files loft.layout loft.keepJournals = .ok loft := load_loftFiles
  have hcommitted : furnished.store.contains .eventFolder hall.id = true ∧
      (furnished.store.assetFolderAt? props).map IndexEntry.id = some shelf.id ∧
      furnished.store.parent? .bus reverb.id = some loft.masterBus := by decide +kernel
  obtain ⟨hfolder, hpath, houtput⟩ := hcommitted
  exact ⟨run_furnished, hfolder, hpath, houtput,
    reopening_agrees hopen wellFormed_loftFiles run_furnished⟩

end AudioProject
