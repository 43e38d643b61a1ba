import AudioProject.Proofs.Staging.Durability
import AudioProject.Proofs.Store.Roots

/-
  The master bus of a project that is opened again. Staging looks at the first object of a record
  alone, but opening reads every object of its document. So an entry that a run adds to the buses is
  either that of a first object, which has an output and an id of its own, or a sibling brought it
  (`Rooted.link`); and a project whose records were committed opens with its master bus exactly if
  the siblings that decide over their ids are no second roots (`reopens_iff_siblings_fit`).
-/

namespace AudioProject

open FileTree Store Staging

namespace Store.Contents

variable {c : Contents} {dir : String} {front back : List (Path × Document)} {k : Kind}
  {path : Path} {d : Document}

/-- A document that comes takes no object away. -/
theorem Defines.put (hold : c.documents dir = front ++ back) {id : ObjectId}
    (h : c.Defines k id) : (c.put dir (front ++ (path, d) :: back)).Defines k id := by
  obtain ⟨o, ho, hid, hentry⟩ := h
  refine ⟨o, ?_, hid, hentry⟩
  by_cases hdir : dir ∈ k.directories
  · obtain ⟨os, os', hbefore, hafter⟩ := objects_put (c := c) hdir hold (path, d)
    rw [hbefore, List.mem_append] at ho
    rw [hafter]
    rcases ho with ho | ho
    · exact List.mem_append_left _ ho
    · exact List.mem_append_right _ (List.mem_append_right _ ho)
  · rwa [objects_put_of_not_mem hdir]

/-- What is found after a document came was found before, or an object of it brought it. -/
theorem get?_index_of_put (hold : c.documents dir = front ++ back) {id : ObjectId}
    {e : IndexEntry} (h : ((c.put dir (front ++ (path, d) :: back)).index k).get? id = some e) :
    (c.index k).get? id = some e ∨
      dir ∈ k.directories ∧ ∃ o ∈ d.objects, IndexEntry.ofObject? k o = some e := by
  unfold index at h ⊢
  by_cases hdir : dir ∈ k.directories
  · obtain ⟨os, os', hbefore, hafter⟩ := objects_put (c := c) hdir hold (path, d)
    rw [hafter] at h
    rw [hbefore]
    exact (KindIndex.get?_of_insertObjects_between h).imp_right fun hnew => ⟨hdir, hnew⟩
  · rw [objects_put_of_not_mem hdir] at h
    exact Or.inl h

end Store.Contents

variable {base : Location} {P : Kind → PendingRecord → Prop} {s : Store} {t t' : FileTree}
  {x y : Session} {e : IndexEntry}

/-! ## Documents of buses -/

namespace Store

/-- The document of a record of a bus is on the disk. -/
def HasBus (s : Store) (t : FileTree) (r : PendingRecord) : Prop :=
  readDocument t ((s.layout.documentDir "Group").join r.id.fileName) =
    .ok ⟨s.model, r.objects.map Object.named⟩

/-- A sibling of a record that `P` allows, and whose document is on the disk, has this entry. -/
def SiblingBrought (P : Kind → PendingRecord → Prop) (s : Store) (t : FileTree) (e : IndexEntry) :
    Prop :=
  ∃ r, P .bus r ∧ s.HasBus t r ∧ ∃ o ∈ r.siblings, IndexEntry.ofObject? .bus o.named = some e

theorem SiblingBrought.keeps (h : SiblingBrought P s t e) (hkeeps : Keeps (IsContent t) t t') :
    SiblingBrought P s t' e := by
  obtain ⟨r, hr, hbus, hsibling⟩ := h
  exact ⟨r, hr, readDocument_keeps (isXml_fileName r.id) hkeeps hbus, hsibling⟩

/-- The documents name the masters of `s`, and each bus that no sibling brought is as it should be:
it is a root if it is the master bus, and no root if it is another one. -/
structure Rooted (P : Kind → PendingRecord → Prop) (s : Store) (t : FileTree) (c : Contents) :
    Prop where
  holds : Holds t s.layout c
  masters : mastersOf c.workspace = .ok s.masters
  folders : ∀ p ∈ s.masters.pointers, c.DefinesFolder p.2
  bus : c.Defines .bus s.masterBus
  entries : ∀ e, (c.index .bus).get? e.id = some e →
    (e.isRoot = true ↔ e.id = s.masterBus) ∨ SiblingBrought P s t e

theorem Presents.rooted {c : Contents} (h : Presents c s) (hholds : Holds t s.layout c) :
    Rooted P s t c := by
  obtain ⟨hbus, hentries⟩ := KindIndex.ids_roots_eq_singleton.1 (masterBusOf_eq_ok.1 h.masterBus)
  exact ⟨hholds, h.masters, h.definesFolder, Contents.contains_index_iff.1 hbus,
    fun e he => Or.inl (hentries e he)⟩

end Store

namespace Session

/-! ## Links -/

/-- The pending buses are allowed and have an output, and none has the id of the master bus. -/
structure Led (P : Kind → PendingRecord → Prop) (s : Store) (x : Session) : Prop where
  layout : x.store.layout = s.layout
  model : x.store.model = s.model
  fits : Fits x.store x.staging
  pending : ∀ id r, x.staging.get? .bus id = some r → P .bus r ∧ ∃ p, r.parent? .bus = some p
  master : x.store.contains .bus s.masterBus = true

theorem Led.link (h : Led P s x) (hlink : Link base x y) : Led P s y := by
  cases hlink with
  | idle hidle =>
    obtain ⟨hlayout, hmodel, hfits, hpending, hmaster⟩ := h
    rw [← hidle.store] at hlayout hmodel hfits hmaster
    rw [← hidle.staging] at hfits hpending
    exact ⟨hlayout, hmodel, hfits, hpending, hmaster⟩
  | @placed k r hplaced _ =>
    obtain ⟨e, he, hstore⟩ := hplaced.entry
    refine ⟨?_, ?_, ?_, fun id q hq => ?_, ?_⟩
    · rw [hstore]
      exact h.layout
    · rw [hstore]
      exact h.model
    · rw [hstore, hplaced.staging]
      exact h.fits.commit hplaced.pending (IndexEntry.id_ofObject? he)
    · rw [hplaced.staging, get?_take] at hq
      split at hq
      · cases hq
      · exact h.pending id q hq
    · rw [hstore, contains_insert, h.master, Bool.or_true]

/-- The entry of a pending bus is no root, and it is not that of the master bus. -/
theorem Led.fitting {r : PendingRecord} (h : Led P s x) (hr : x.staging.get? .bus r.id = some r)
    (he : IndexEntry.ofObject? .bus r.object = some e) :
    e.isRoot = true ↔ e.id = s.masterBus := by
  obtain ⟨-, p, hp⟩ := h.pending r.id r hr
  rw [IndexEntry.isRoot_of_parent he (h.fits.admitted .bus r.id r hr).accepts hp]
  refine iff_of_false (by simp) fun hid => ?_
  have hfresh := h.fits.fresh .bus r.id r hr .bus
  rw [show r.id = e.id from (IndexEntry.id_ofObject? he).symm, hid, h.master] at hfresh
  cases hfresh

theorem Led.rooted_of_link {c : Contents} (h : Led P s x) (hc : Rooted P s x.host.files c)
    (hx : AnchoredAt base x) (hlink : Link base x y) (hy : AnchoredAt base y) :
    ∃ c', Rooted P s y.host.files c' := by
  have hled := h.link hlink
  have hkeeps := hlink.documents
  unfold AnchoredAt at hx hy
  cases hlink with
  | idle hidle =>
    rw [h.layout] at hx
    rw [hled.layout] at hy
    exact ⟨c, hc.holds.idle hx hy hidle.documents, hc.masters, hc.folders, hc.bus,
      fun e he => (hc.entries e he).imp_right fun hbrought => hbrought.keeps hkeeps⟩
  | @placed k r hplaced _ =>
    obtain ⟨e₀, he₀, -⟩ := hplaced.entry
    obtain ⟨dir, path, front, back, hdir, hmem, hold, hholds⟩ :=
      hplaced.holds hx hy (h.layout ▸ hc.holds)
    rw [hled.layout] at hholds
    refine ⟨_, hholds, hc.masters, fun p hp => ?_, hc.bus.put hold, fun e he => ?_⟩
    · obtain ⟨j, hj, hdefines⟩ := hc.folders p hp
      exact ⟨j, hj, hdefines.put hold⟩
    rcases Contents.get?_index_of_put hold he with hbefore | ⟨hbus, o, ho, heo⟩
    · exact (hc.entries e hbefore).imp_right fun hbrought => hbrought.keeps hkeeps
    · obtain rfl := Kind.eq_of_mem_directories hmem hbus
      obtain ⟨o', ho', rfl⟩ := List.mem_map.1 ho
      rcases List.mem_cons.1 ho' with hfirst | hsibling
      · rw [hfirst, IndexEntry.named_of_ofObject? he₀] at heo
        exact Or.inl (h.fitting hplaced.pending heo)
      · have hreads := hplaced.reads hy hdir
        rw [List.mem_singleton.1 hbus, hled.layout, h.model] at hreads
        exact Or.inr ⟨r, (h.pending r.id r hplaced.pending).1, hreads, o', hsibling, heo⟩

/-! ## Runs -/

theorem Led.restage (h : Led P s y) {g : Staging} (hg : Restaged P y g) :
    Led P s { y with staging := g } := by
  refine ⟨h.layout, h.model, hg.fits h.fits, ?_, h.master⟩
  cases hg with
  | @stage k r g hallowed hstage =>
    obtain ⟨-, houtput, -, path, -, rfl⟩ := stage_passes_iff.1 hstage
    intro id q hq
    rw [get?_add] at hq
    split at hq
    · next hsame =>
      obtain ⟨rfl, -⟩ := hsame
      cases hq
      exact ⟨hallowed, Option.ne_none_iff_exists'.1 fun hnone => houtput ⟨rfl, hnone⟩⟩
    · exact h.pending id q hq
  | discard =>
    intro id q hq
    cases hq

/-- What a run keeps: the project stays where it is, and its documents name its masters. -/
structure Reopenable (base : Location) (P : Kind → PendingRecord → Prop) (s : Store) (x : Session) :
    Prop where
  anchored : AnchoredAt base x
  led : Led P s x
  contents : ∃ c, Rooted P s x.host.files c

theorem Reopenable.link (h : Reopenable base P s x) (hlink : Link base x y)
    (hy : AnchoredAt base y) : Reopenable base P s y := by
  obtain ⟨c, hc⟩ := h.contents
  exact ⟨hy, h.led.link hlink, h.led.rooted_of_link hc h.anchored hlink hy⟩

theorem Run.reopenable (h : Run (Restaged P) x y) (hx : Reopenable base P s x) :
    Reopenable base P s y := by
  induction h with
  | refl => exact hx
  | restage _ hg ih => exact ⟨ih.anchored, ih.led.restage hg, ih.contents⟩
  | @outside y _ host hfiles ih =>
    obtain ⟨hanchored, hled, hcontents⟩ := ih
    unfold AnchoredAt at hanchored
    rw [← hfiles] at hanchored hcontents
    exact ⟨hanchored, ⟨hled.layout, hled.model, hled.fits, hled.pending, hled.master⟩, hcontents⟩
  | commit _ ih =>
    exact (trail_commitAll ih.anchored ih.led.fits.keyed).keeps
      (fun hlink hy h => h.link hlink hy) ih

theorem reopenable_of_load {host : Host} {l : Layout} {keep : Bool}
    (hopen : load host.files l keep = .ok s) (hwell : host.files.WellFormed) :
    ∃ base, Reopenable base P s ⟨host, s, {}⟩ := by
  obtain ⟨rfl, -, c, hholds, hpresents⟩ := load_eq_ok_iff.1 hopen
  obtain ⟨base, hanchored⟩ := exists_anchored hwell hholds
  refine ⟨base, hanchored, ⟨rfl, rfl, .empty s, fun id r hr => ?_, hpresents.rootsOf.bus⟩, c,
    hpresents.rooted hholds⟩
  cases hr

end Session

/-! ## Opening again -/

/-- Where the documents name the masters, opening only fails over the buses. -/
theorem Store.Rooted.load {c : Contents} (h : Rooted P s t c) (keep : Bool) :
    (∀ id, masterBusOf (c.index .bus) = .ok id →
      ∃ s', load t s.layout keep = .ok s' ∧ s'.masterBus = id) ∧
    ∀ e, masterBusOf (c.index .bus) = .error e → load t s.layout keep = .error e := by
  constructor
  · intro id hid
    rcases load_decides h.holds h.masters hid keep with ⟨hload, -⟩ | ⟨p, hp, hnot, -⟩
    · exact ⟨_, hload, rfl⟩
    · exact absurd (h.folders p hp) hnot
  · intro e he
    rw [load_of_holds h.holds keep, h.masters, ok_bind, he]
    rfl

/-- What opening says of the buses is that none is a root, or that several are. -/
theorem Store.masterBusOf_eq_error {b : KindIndex} {e : Store.Error}
    (h : masterBusOf b = .error e) :
    e = .invalid .noMasterBus ∨ ∃ ids, e = .invalid (.masterBuses ids) := by
  unfold masterBusOf at h
  split at h
  · cases h
  · cases h
    exact Or.inl rfl
  · cases h
    exact Or.inr ⟨_, rfl⟩

/-- Only siblings decide whether the master bus is found again. -/
theorem Store.Rooted.finds_iff {c : Contents} (h : Rooted P s t c) :
    masterBusOf (c.index .bus) = .ok s.masterBus ↔
      ∀ r, P .bus r → s.HasBus t r → ∀ o ∈ r.siblings, ∀ e,
        IndexEntry.ofObject? .bus o.named = some e → (c.index .bus).get? o.id = some e →
        (e.isRoot = true ↔ o.id = s.masterBus) := by
  rw [masterBusOf_eq_ok, KindIndex.ids_roots_eq_singleton]
  constructor
  · rintro ⟨-, hall⟩ r - - o - e he hfound
    have hid : e.id = o.id := IndexEntry.id_ofObject? (o := o.named) he
    rw [← hid] at hfound ⊢
    exact hall e hfound
  · intro hall
    refine ⟨Contents.contains_index_iff.2 h.bus, fun e he => ?_⟩
    rcases h.entries e he with hfitting | ⟨r, hr, hbus, o, ho, heo⟩
    · exact hfitting
    · have hid : e.id = o.id := IndexEntry.id_ofObject? (o := o.named) heo
      rw [hid] at he ⊢
      exact hall r hr hbus o ho e heo he

open Session

/-- After any run of staging records and committing them, whatever the commits came to, the project
on the disk opens with its master bus exactly if each sibling of a bus that has its id in the index
is a root only as the master bus. It can be read, and it only fails to open for its root buses. -/
theorem reopens_iff_siblings_fit {host : Host} {l : Layout} {keep : Bool} {s : Store}
    (hopen : load host.files l keep = .ok s) (hwell : host.files.WellFormed)
    {P : Kind → PendingRecord → Prop} {x : Session} (hrun : Run (Restaged P) ⟨host, s, {}⟩ x) :
    ∃ c, Holds x.host.files l c ∧
      ((∃ s', load x.host.files l keep = .ok s' ∧ s'.masterBus = s.masterBus) ↔
        ∀ r, P .bus r → s.HasBus x.host.files r → ∀ o ∈ r.siblings, ∀ e,
          IndexEntry.ofObject? .bus o.named = some e → (c.index .bus).get? o.id = some e →
          (e.isRoot = true ↔ o.id = s.masterBus)) ∧
      ∀ e, load x.host.files l keep = .error e →
        e = .invalid .noMasterBus ∨ ∃ ids, e = .invalid (.masterBuses ids) := by
  obtain ⟨base, hfirst⟩ := reopenable_of_load hopen hwell
  obtain ⟨c, hc⟩ := (hrun.reopenable hfirst).contents
  obtain ⟨rfl, -, -⟩ := load_eq_ok_iff.1 hopen
  obtain ⟨hok, herror⟩ := hc.load keep
  refine ⟨c, hc.holds, ?_, fun e he => ?_⟩
  · rw [← hc.finds_iff]
    constructor
    · rintro ⟨s', hload, hsame⟩
      cases hbus : masterBusOf (c.index .bus) with
      | error e =>
        rw [herror e hbus] at hload
        cases hload
      | ok id =>
        obtain ⟨s'', hload', rfl⟩ := hok id hbus
        obtain rfl := Except.ok.inj (hload'.symm.trans hload)
        rw [hsame]
    · exact hok _
  · cases hbus : masterBusOf (c.index .bus) with
    | error e' =>
      rw [herror e' hbus] at he
      cases he
      exact masterBusOf_eq_error hbus
    | ok id =>
      obtain ⟨s', hload, -⟩ := hok id hbus
      rw [hload] at he
      cases he

theorem reopens_furnished :
    Run (Restaged fun _ r => r.Built) ⟨loftHost, loft, {}⟩ furnished ∧
      ∃ s', load furnished.host.files loft.layout loft.keepJournals = .ok s' ∧
        s'.masterBus = loft.masterBus := by
  have hopen : load loftHost.files loft.layout loft.keepJournals = .ok loft := load_loftFiles
  obtain ⟨c, -, hiff, -⟩ := reopens_iff_siblings_fit hopen wellFormed_loftFiles run_furnished
  refine ⟨run_furnished, hiff.2 fun r hr _ o ho e he => ?_⟩
  rw [hr.plain.siblings o ho .bus] at he
  cases he

/-! ### A bus with a second root beside it -/

/-- The project without kept journals. -/
def studio : Store := { loft with keepJournals := false }

theorem load_studio : load loftFiles studio.layout studio.keepJournals = .ok studio :=
  load_eq_ok_of_holds (s := studio) holds_loftFiles
    ⟨presents_loft.model, presents_loft.masters, presents_loft.indices, presents_loft.masterBus,
      presents_loft.eventFolder, presents_loft.bankFolder, presents_loft.assetFolder⟩

/-- A bus below the master bus, whose document has another bus without output. -/
def annex : PendingRecord :=
  ⟨({ id := ⟨"annex", by decide⟩, objectClass := .mixerGroup } : Object).setEdge "output"
    [studio.masterBus], [{ id := ⟨"solo", by decide⟩, objectClass := .mixerGroup }]⟩

theorem stage_annex : ({} : Staging).stage studio .bus annex =
    .ok (({} : Staging).add .bus annex none) := rfl

def annexedContents : Contents :=
  loftContents.put "Group" [(⟨"/p/Metadata/Group/annex.xml"⟩, ⟨studio.model, annex.objects⟩)]

/-- The project with it staged. -/
def annexing : Session := ⟨loftHost, studio, ({} : Staging).add .bus annex none⟩

/-- The project after a commit of it. -/
def annexed : Session := commitAll.after annexing

theorem fits_annexing : Fits annexing.store annexing.staging := (Fits.empty studio).stage stage_annex

theorem documents_annexed : Keeps (IsContent loftFiles) loftFiles annexed.host.files := by
  obtain ⟨base, hanchored⟩ := exists_anchored wellFormed_loftFiles holds_loftFiles
  have htrail : Trail base annexing (trail annexing) annexed :=
    trail_commitAll hanchored fits_annexing.keyed
  exact htrail.documents

theorem readDocument_annexed :
    readDocument annexed.host.files ⟨"/p/Metadata/Group/annex.xml"⟩ =
      .ok ⟨studio.model, annex.objects⟩ := by
  have hsteps : Steps annexing annexed := steps_commitAll fits_annexing
  have hpending : annexing.staging.get? .bus annex.id = some annex := by decide +kernel
  have hafter : annexed.staging.get? .bus annex.id = none ∧ annexed.store.model = studio.model ∧
      annexed.store.layout.objectPath? annex.object.objectClass annex.id =
        some ⟨"/p/Metadata/Group/annex.xml"⟩ := by decide +kernel
  obtain ⟨hnone, hmodel, hplace⟩ := hafter
  rcases record_of_steps hsteps fits_annexing hpending with hstays | ⟨-, hcommitted⟩
  · rw [hnone] at hstays
    cases hstays
  · obtain ⟨path, hpath, hread⟩ := hcommitted.document
    obtain rfl := Option.some.inj (hplace.symm.trans hpath)
    have hdocument := readDocument_written hread
    rw [hmodel] at hdocument
    exact hdocument

theorem holds_annexed : Holds annexed.host.files studio.layout annexedContents where
  workspace := readRequired_eq_ok.2 (readDocument_keeps isXml_workspace documents_annexed
    (readRequired_eq_ok.1 holds_loftFiles.workspace))
  master := readRequired_eq_ok.2 (readDocument_keeps isXml_master documents_annexed
    (readRequired_eq_ok.1 holds_loftFiles.master))
  documents := by
    have hfiles : (∀ dir ∈ ["Asset", "BankFolder", "Bank"],
          annexed.host.files.list (studio.layout.documentDir dir) = .error .notFound) ∧
        annexed.host.files.list (studio.layout.documentDir "EventFolder") = .ok ["lost.xml"] ∧
        annexed.host.files.isFile ⟨"/p/Metadata/EventFolder/lost.xml"⟩ = true ∧
        annexed.host.files.list (studio.layout.documentDir "Group") = .ok ["annex.xml"] ∧
        annexed.host.files.isFile ⟨"/p/Metadata/Group/annex.xml"⟩ = true := by decide +kernel
    obtain ⟨hmissing, hfolders, hlost, hgroups, hannex⟩ := hfiles
    have hfolder : documentsIn annexed.host.files (studio.layout.documentDir "EventFolder") =
        .ok (annexedContents.documents "EventFolder") := by
      have hxml : IsXml "lost.xml" :=
        ⟨⟨by decide, by decide, by decide, by decide⟩, "lost", by decide, rfl⟩
      have hpath : (studio.layout.documentDir "EventFolder").join "lost.xml" =
          ⟨"/p/Metadata/EventFolder/lost.xml"⟩ := by decide +kernel
      have hread := readDocument_lost
      rw [← hpath] at hread
      have hkept := readDocument_keeps hxml documents_annexed hread
      rw [hpath] at hkept
      exact documentsIn_of_single hfolders hpath hlost (by decide +kernel) hkept
    have hgroup : documentsIn annexed.host.files (studio.layout.documentDir "Group") =
        .ok (annexedContents.documents "Group") :=
      documentsIn_of_single hgroups (by decide +kernel) hannex (by decide +kernel)
        readDocument_annexed
    have hnone : ∀ dir ∈ ["Asset", "BankFolder", "Bank"],
        documentsIn annexed.host.files (studio.layout.documentDir dir) = .ok [] :=
      fun dir hdir => documentsIn_of_missing (hmissing dir hdir)
    intro k dir hdir
    cases k with
    | eventFolder =>
      obtain rfl := List.mem_singleton.1 hdir
      exact hfolder
    | assetFolder =>
      obtain rfl := List.mem_singleton.1 hdir
      exact hnone _ (by decide)
    | bank =>
      rcases List.mem_cons.1 hdir with rfl | hdir
      · exact hnone _ (by decide)
      · obtain rfl := List.mem_singleton.1 hdir
        exact hnone _ (by decide)
    | bus =>
      obtain rfl := List.mem_singleton.1 hdir
      exact hgroup

/-- Staging takes the record and it is committed, but then the project has two root buses. -/
theorem second_root_beside_a_bus :
    load loftHost.files studio.layout studio.keepJournals = .ok studio ∧
    ({} : Staging).stage studio .bus annex = .ok annexing.staging ∧
    load annexed.host.files studio.layout studio.keepJournals =
      .error (.invalid (.masterBuses [studio.masterBus, ⟨"solo", by decide⟩])) := by
  refine ⟨load_studio, stage_annex, ?_⟩
  rw [load_of_holds holds_annexed]
  rfl

end AudioProject
