import AudioProject.Proofs.Instantiation.Planning
import AudioProject.Proofs.Instantiation.Running

/-
  An instantiation makes all of its files or none. Whatever a run stops at, its notes cover exactly
  the files that it has made, so undoing it brings every file outside the journals back; and a run
  that goes well has made the copies, the documents of the audio files and that of the event, and
  nothing else: `instantiate_all_or_nothing`.
-/

namespace AudioProject.Instantiation

open FileTree AudioProject.Path

variable {s : Store} {r : Request} {h h' : Host} {base : Location} {t t' : FileTree}

/-- What an instantiation relies on: a checked assets directory, files that stand in directories,
no draft of a document that was left behind, an operation name that can be a file name, and ids
that are new when they are minted. -/
structure Relies (s : Store) (probing : Bool) (r : Request) (h : Host) : Prop where
  assets : Settings.checkAssetsDir s.layout.assetsDir = .ok ()
  tree : h.files.IsTree
  no_draft : ∀ c id path, s.layout.objectPath? c id = some path →
    h.files.isFile (Store.draft path) = false
  operation : '/' ∉ (h.operationName h.operations).toList
  ids : ∀ p ids', plan s h.files probing r h.ids = .ok p ids' → MintsFresh r h.ids ids'

/-- The document of an audio file. -/
def audioDocument (s : Store) (o : Object) : NewFile :=
  ⟨documentNames "AudioFile" o.id, s.documentBytes [o]⟩

/-- The document of the new event. -/
def eventDocument (s : Store) (p : Plan) : NewFile :=
  ⟨documentNames "Event" p.eventId, s.documentBytes p.event.objects⟩

/-- How an instantiation ends: with every file as before, or with a copy of each media file that is
not there yet, a document for each media file and one for the event, and no other difference.
Journals do not count. -/
inductive AllOrNothing (s : Store) (r : Request) (h : Host) :
    EStateM.Result Error Host ObjectId → Prop where
  | nothing {e : Error} {h' : Host}
    (same : ∀ l, (∀ base, h.files.walk s.layout.root = .ok base → ¬ InJournals base l) →
      h'.files.contentAt? l = h.files.contentAt? l) :
    AllOrNothing s r h (.error e h')
  | all {p : Plan} {base : Location} {h' : Host} {copies : List NewFile}
    (found : h.files.walk s.layout.root = .ok base) (plans : Plans s h.files r p)
    (copied : List.Forall₂ (fun c f => IsCopy s base c h'.files f)
      (p.copies.filter fun c => !c.reuse) copies)
    (adds : Adds s.layout.root base
      (copies ++ p.audioFiles.map (audioDocument s) ++ [eventDocument s p]) h.files h'.files) :
    AllOrNothing s r h (.ok p.eventId h')

/-! ## The files of a plan -/

theorem forall₂_of_copied {cs : List PlannedCopy} {new : List NewFile}
    (h : Rounds (IsCopied s base) t cs new) :
    List.Forall₂ (fun c f => IsCopy s base c t f) (cs.filter fun c => !c.reuse) new := by
  induction h with
  | nil => exact .nil
  | @cons c cs new rest first _ ih =>
    unfold IsCopied at first
    cases hreuse : c.reuse with
    | true =>
      rw [if_pos hreuse] at first
      rw [List.filter_cons_of_neg (by simp [hreuse]), first]
      exact ih
    | false =>
      rw [if_neg (by simp [hreuse])] at first
      obtain ⟨f, rfl, hf⟩ := first
      rw [List.filter_cons_of_pos (by simp [hreuse])]
      exact .cons hf ih

theorem eq_audioDocuments {media : List PreparedMedia} {os : List Object} {new : List NewFile}
    (haudio : List.Forall₂ IsAudioFile media os)
    (h : Rounds (fun o _ new => ∃ f, new = [f] ∧ IsDocument s [o] f) t os new) :
    new = os.map (audioDocument s) := by
  induction h generalizing media with
  | nil => rfl
  | @cons o os new rest first _ ih =>
    cases haudio with
    | @cons m o media os ho hos =>
      obtain ⟨f, rfl, q, qs, dir, hq, hdir, rfl⟩ := first
      obtain ⟨rfl, rfl⟩ := List.cons.inj hq
      rw [ho.objectClass] at hdir
      obtain rfl := Option.some.inj hdir
      rw [ih hos]
      rfl

theorem eq_eventDocument {p : Plan} (hevent : p.event.HasEvent) {f : NewFile}
    (h : IsDocument s p.event.objects f) : f = eventDocument s p := by
  obtain ⟨o, rest, hobjects, hid, hclass⟩ := EventGraph.objects_eq_cons hevent
  obtain ⟨q, qs, dir, hq, hdir, rfl⟩ := h
  rw [hobjects] at hq
  obtain ⟨rfl, rfl⟩ := List.cons.inj hq
  rw [hclass] at hdir
  obtain rfl := Option.some.inj hdir
  unfold documentFile eventDocument Plan.eventId
  rw [hid, hobjects]

theorem isMediaPath_of_plans {p : Plan} (h : Plans s t r p)
    (hassets : Settings.checkAssetsDir s.layout.assetsDir = .ok ()) :
    ∀ c ∈ p.copies, IsMediaPath s c.dest := by
  intro c hc
  obtain ⟨names, hnames, hplace⟩ := exists_names_of_plans h hassets hc
  exact ⟨names, hnames, hplace.isPlanned⟩

theorem Adds.reverse {root : Path} {files : List NewFile} (h : Adds root base files.reverse t t') :
    Adds root base files t t' where
  directories := h.directories
  planned := fun f hf => h.planned f (List.mem_reverse.2 hf)
  located := fun f hf => h.located f (List.mem_reverse.2 hf)
  content := fun f hf => h.content f (List.mem_reverse.2 hf)
  new := fun f hf => h.new f (List.mem_reverse.2 hf)
  distinct := by
    have hdistinct := h.distinct
    rw [List.map_reverse] at hdistinct
    exact (List.reverse_perm _).nodup_iff.1 hdistinct
  others := by
    intro l hl hnew
    refine h.others l hl ?_
    rw [List.map_reverse, List.mem_reverse]
    exact hnew

/-! ## The instantiation -/

/-- A run that has not done anything yet. -/
def start (h : Host) (ids : IdSupply) : Run where
  host := (Journal.begin { h with ids := ids } "instantiate").2
  journal := (Journal.begin { h with ids := ids } "instantiate").1

theorem tracks_start {probing : Bool} (hrelies : Relies s probing r h)
    (hfound : h.files.walk s.layout.root = .ok base) (ids : IdSupply) :
    Tracks s base h.files [] (start h ids) where
  site := ⟨hfound, hrelies.tree, hrelies.no_draft⟩
  adds := .refl s.layout.root base h.files
  created := rfl
  operation := hrelies.operation

theorem instantiate_of_plan_error {probing : Bool} {e : Error} {ids : IdSupply}
    (h₁ : plan s h.files probing r h.ids = .error e ids) :
    instantiate s probing r h = .error e { h with ids := ids } := by
  have hplan : Host.onIds id (plan s h.files probing r) h = .error e { h with ids := ids } :=
    Action.within_eq_error.2 ⟨e, ids, h₁, rfl, rfl⟩
  unfold instantiate
  rw [hplan]

theorem instantiate_of_plan_ok {probing : Bool} {p : Plan} {ids : IdSupply}
    (h₁ : plan s h.files probing r h.ids = .ok p ids) :
    instantiate s probing r h = match execute s p (start h ids) with
      | .ok () c => .ok p.eventId (conclude s c)
      | .error e c => .error e (rollBack s c) := by
  have hplan : Host.onIds id (plan s h.files probing r) h = .ok p { h with ids := ids } :=
    Action.within_eq_ok.2 ⟨ids, h₁, rfl⟩
  unfold instantiate
  rw [hplan]
  rfl

theorem after_of_plan_ok {probing : Bool} {p : Plan} {ids : IdSupply}
    (h₁ : plan s h.files probing r h.ids = .ok p ids) :
    (instantiate s probing r).after h = match execute s p (start h ids) with
      | .ok () c => conclude s c
      | .error _ c => rollBack s c := by
  unfold Action.after
  rw [instantiate_of_plan_ok h₁]
  cases execute s p (start h ids) <;> rfl

/-- An instantiation makes all of its files, or leaves every file as it was. -/
theorem instantiate_all_or_nothing {probing : Bool} (hrelies : Relies s probing r h) :
    AllOrNothing s r h (instantiate s probing r h) := by
  cases hplan : plan s h.files probing r h.ids with
  | error e ids =>
    rw [instantiate_of_plan_error hplan]
    exact .nothing fun _ _ => rfl
  | ok p ids =>
    rw [instantiate_of_plan_ok hplan]
    obtain ⟨hplans, hevent⟩ := plans_of_plan hplan
    obtain ⟨base, hfound⟩ := hplans.found
    have htracks := tracks_start hrelies hfound ids
    have hmedia := isMediaPath_of_plans hplans hrelies.assets
    have hmakes : Makes s base h.files _ (execute s p) := makes_execute hmedia
    cases hrun : execute s p (start h ids) with
    | error e c =>
      obtain ⟨files, htracks'⟩ := hmakes.error htracks hrun
      exact .nothing fun l hl => rollBack_restores htracks' (hl base hfound)
    | ok u c =>
      obtain ⟨new, htracks', -, copies, audio, event, rfl, hcarries⟩ := hmakes.ok htracks hrun
      obtain ⟨hadds, hgrows⟩ := adds_conclude htracks'
      rw [List.append_nil] at hadds
      obtain ⟨probing', haudio⟩ := hplans.audioFiles
      have hcopied := forall₂_of_copied (hcarries.copies.grows isStable_copied hgrows)
      have hdocuments := eq_audioDocuments haudio hcarries.audio
      have hlast := eq_eventDocument (hevent (hrelies.ids p ids hplan)) hcarries.event
      subst hdocuments hlast
      exact .all hfound hplans hcopied hadds.reverse

/-- A project with a folder, a bank and a bus. -/
def shop : Store where
  layout := { root := ⟨"/p"⟩ }
  model := ⟨"Studio.02.01.00", by decide⟩
  masters := ⟨⟨"shop", by decide⟩, ⟨"events", by decide⟩, ⟨"banks", by decide⟩,
    ⟨"assets", by decide⟩⟩
  masterBus := ⟨"main", by decide⟩
  indices :=
    ⟨(KindIndex.empty .eventFolder).insert
        ⟨⟨"events", by decide⟩, .masterEventFolder, "", .root⟩,
      .empty .assetFolder,
      (KindIndex.empty .bank).insert ⟨⟨"sounds", by decide⟩, .bank, "", .root⟩,
      (KindIndex.empty .bus).insert ⟨⟨"main", by decide⟩, .mixerMaster, "", .root⟩⟩
  keepJournals := true

/-- The only event of the project. -/
def bell : Object := { id := ⟨"bell", by decide⟩, objectClass := .event }

def bellGraph : EventGraph := ⟨bell.id, shop.model, definitions [bell]⟩

/-- The third write of a journal will fail. -/
def shopHost : Host where
  files := { nodes := ⟨[(["p"], .directory), (["p", "Metadata"], .directory),
    (["p", "Metadata", "Event"], .directory),
    (["p", "Metadata", "Event", "bell.xml"], .file (shop.documentBytes [bell])),
    (["bell.wav"], .file "ding".toUTF8)], by decide⟩ }
  ids := .ofStart 0
  operationName := fun _ => "op"
  now := ⟨0, 0⟩
  faults := .after 3

/-- An event like the bell, with a sound. -/
def order : Request where
  template := bell.id
  eventId? := some ⟨"chime", by decide⟩
  name := "Chime"
  folder := ⟨"events", by decide⟩
  bank := ⟨"sounds", by decide⟩
  bus := ⟨"main", by decide⟩
  media := [⟨⟨"/bell.wav"⟩, .root⟩]

theorem extract_bell : EventGraph.extract? bell.id shop.model [bell] = some bellGraph := by
  have hids : gatherFrom [bell] [bell.id] [bell] = [bell.id] := by
    have hnone : bell.destinations = [] := rfl
    simp [gatherFrom, hnone]
  have hbell : definition? [bell] bell.id = some bell := by decide
  unfold EventGraph.extract?
  rw [hbell]
  dsimp only
  rw [hids]
  decide

/-- The bell is loaded wherever its document is. -/
theorem loadEvent_bell
    (hlocate : t.locate ⟨"/p/Metadata/Event/bell.xml"⟩ = .ok ["p", "Metadata", "Event", "bell.xml"])
    (hcontent : t.contentAt? ["p", "Metadata", "Event", "bell.xml"] =
      some (shop.documentBytes [bell])) :
    shop.loadEvent t bell.id = .ok bellGraph := by
  have hread : Store.readDocument t ⟨"/p/Metadata/Event/bell.xml"⟩ = .ok ⟨shop.model, [bell]⟩ := by
    refine Store.readDocument_of_read ?_ (read_eq_ok.2 ⟨_, hlocate, hcontent⟩)
    intro o ho
    rw [List.mem_singleton.1 ho]
    exact ⟨"Event", rfl⟩
  have hhas := has_of_locate hlocate (node?_ne_none_of_contentAt? hcontent)
  exact loadEvent_eq_ok.2 ⟨_, _, by decide, hhas, hread, extract_bell⟩

theorem resolves_order : Resolves shop shopHost.files order bellGraph where
  template := loadEvent_bell (by decide) rfl
  folder := by decide
  bank := by decide
  bus := by decide
  media := by decide
  unused := by
    intro id hid
    cases hid
    decide

def bellCopy : PlannedCopy := ⟨⟨"/bell.wav"⟩, ⟨"/p/Assets/bell.wav"⟩, false⟩

/-- What is planned for the order, and the supply of ids after that. -/
def orderPlan : Plan × IdSupply :=
  let copy := bellGraph.copy (eventId order shopHost.ids).1 (eventId order shopHost.ids).2
  assemble shop order copy.1 copy.2.1.size [bellCopy]
    (order.media.map (prepare shopHost.files false)) copy.2.2

theorem plan_order :
    plan shop shopHost.files false order shopHost.ids = .ok orderPlan.1 orderPlan.2 :=
  plan_eq_ok.2 ⟨bellGraph, [bellCopy], resolves_order, by decide, rfl⟩

theorem mintsFresh_order : MintsFresh order shopHost.ids orderPlan.2 := by
  have hissued : orderPlan.2.issued = 8 := by decide
  constructor
  · intro m n _ hlt hn
    have hall : ∀ n < 8, ∀ m < n, shopHost.ids.nth m ≠ shopHost.ids.nth n := by decide
    exact hall n (hissued ▸ hn) m hlt
  · intro id hid n _ hn
    cases hid
    have hall : ∀ n < 8, orderPlan.2.nth n ≠ ⟨"chime", by decide⟩ := by decide
    exact hall n (hissued ▸ hn)

theorem relies_order : Relies shop false order shopHost where
  assets := by decide
  tree := isTree_of_keys (by decide)
  no_draft := fun _ _ path _ => Store.isFile_draft_of_keys (by decide) path
  operation := by decide
  ids := by
    intro p ids' hplan
    obtain ⟨-, rfl⟩ := EStateM.Result.ok.inj (plan_order.symm.trans hplan)
    exact mintsFresh_order

/-- The order fails behind the document of its audio file; directories and the journal stay. -/
theorem instantiate_all_or_nothing_order :
    Relies shop false order shopHost ∧
      AllOrNothing shop order shopHost (instantiate shop false order shopHost) ∧
      ((instantiate shop false order).after shopHost).files.nodes.keys =
        shopHost.files.nodes.keys ++ [["p", "Assets"], ["p", ".eventforge"],
          ["p", ".eventforge", "ops"], ["p", ".eventforge", "ops", "op.json"],
          ["p", "Metadata", "AudioFile"]] := by
  refine ⟨relies_order, instantiate_all_or_nothing relies_order, ?_⟩
  rw [after_of_plan_ok plan_order]
  decide +kernel

end AudioProject.Instantiation
