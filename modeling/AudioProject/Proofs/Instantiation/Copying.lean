import AudioProject.Proofs.EventGraph.Copies
import AudioProject.Proofs.Instantiation.Atomicity
import Mathlib.Data.List.Permutation

/-
  A request without media makes a copy of its template. Whatever the template is, with cycles,
  shared nodes and edges that leave it, the plan is there as soon as the request resolves, and its
  event is the template under new ids, with the name, the folder, the bank and the bus of the
  request: `plan_copies_template`.
-/

namespace AudioProject.Instantiation

open EventGraph

variable {s : Store} {t : FileTree} {r : Request} {ids : IdSupply} {g : EventGraph}

theorem plan_of_no_media (h : resolve s t r = .ok g) (hmedia : r.media = []) (probing : Bool) :
    plan s t probing r ids =
      .ok ⟨((g.copy (eventId r ids).1 (eventId r ids).2).1.override (overrides r)).1, [], [],
          (g.copy (eventId r ids).1 (eventId r ids).2).2.1.size, 0⟩
        (g.copy (eventId r ids).1 (eventId r ids).2).2.2 := by
  refine plan_eq_ok.2 ⟨g, [], resolve_eq_ok.1 h, ?_, ?_⟩
  · rw [hmedia]
    rfl
  · rw [hmedia]
    rfl

/-- The plan of a request without media is a copy of its template, if the ids for it are new. -/
theorem plan_copies_template (h : resolve s t r = .ok g) (hmedia : r.media = [])
    (hnew : g.NewFor (g.copyIds (eventId r ids).1 (eventId r ids).2)) (probing : Bool) :
    ∃ p ids', plan s t probing r ids = .ok p ids' ∧ p.eventId = (eventId r ids).1 ∧
      p.audioFiles = [] ∧ p.copies = [] ∧ p.copied = g.size ∧ p.pruned = 0 ∧
      ∃ φ, CopiesUnder φ (overrides r) g p.event := by
  obtain ⟨-, ⟨o, hget, -⟩, hkeyed⟩ := hasEvent_of_loadEvent (resolve_eq_ok.1 h).template
  have hroot : g.contains g.root = true := OrderedMap.contains_of_get? hget
  have hnames := respells_copy hroot hnew.once
  refine ⟨_, _, plan_of_no_media h hmedia probing, root_override _ _, rfl, rfl, ?_, rfl, _,
    hnames.copiesUnder hkeyed hroot hnew (overrides r)⟩
  have hsize := congrArg List.length hnames.keys
  simpa [OrderedMap.keys, OrderedMap.size, EventGraph.size] using hsize

/-! ### A template with two tracks -/

def carolId : ObjectId := ⟨"carol", by decide⟩

def noelId : ObjectId := ⟨"noel", by decide⟩

/-- An event that its own nodes lead back to. It has a timeline, two group tracks, a mixer input and
the sounds that they play; two edges leave it for the folder and the bank. -/
def carol : List Object :=
  [(((((({ id := carolId, objectClass := .event } : Object).setProperty "name" "Carol").setEdge
      "folder" [order.folder]).setEdge "timeline" [⟨"line", by decide⟩]).setEdge
      "groupTracks" [⟨"lead", by decide⟩, ⟨"choir", by decide⟩, ⟨"lead", by decide⟩]).setEdge
      "mixerInput" [⟨"input", by decide⟩]).setEdge "self" [carolId],
    ({ id := ⟨"line", by decide⟩, objectClass := .timeline } : Object).setEdge "modules"
      [⟨"tune", by decide⟩],
    (({ id := ⟨"lead", by decide⟩, objectClass := .groupTrack } : Object).setEdge "modules"
      [⟨"tune", by decide⟩]).setEdge "event" [carolId],
    ({ id := ⟨"choir", by decide⟩, objectClass := .groupTrack } : Object).setEdge "modules"
      [⟨"hum", by decide⟩],
    ({ id := ⟨"input", by decide⟩, objectClass := .mixerInput } : Object).setEdge "output"
      [⟨"aux", by decide⟩],
    ({ id := ⟨"tune", by decide⟩, objectClass := .singleSound } : Object).setEdge "audioFile"
      [⟨"tape", by decide⟩],
    { id := ⟨"hum", by decide⟩, objectClass := .singleSound }]

def carolGraph : EventGraph := ⟨carolId, shop.model, definitions carol⟩

def carolFiles : FileTree where
  nodes := ⟨[(["p"], .directory), (["p", "Metadata"], .directory),
    (["p", "Metadata", "Event"], .directory),
    (["p", "Metadata", "Event", "carol.xml"], .file (shop.documentBytes carol))], by decide⟩

/-- An event like the carol, under an id of its own. -/
def noel : Request where
  template := carolId
  eventId? := some noelId
  name := "Noel"
  folder := order.folder
  bank := order.bank
  bus := order.bus

theorem reached_carol : carolGraph.reached =
    [⟨"hum", by decide⟩, ⟨"tune", by decide⟩, ⟨"input", by decide⟩, ⟨"choir", by decide⟩,
      ⟨"lead", by decide⟩, ⟨"line", by decide⟩, carolId] := by cbv

theorem extract_carol : extract? carolId shop.model carol = some carolGraph := by
  have hreachable : carolGraph.reachable = carolGraph.nodes := by
    unfold reachable
    rw [reached_carol]
    decide +kernel
  refine extract?_eq_some_iff.2 ⟨⟨_, rfl, rfl⟩, ?_⟩
  show carolGraph = carolGraph.prune.1
  unfold prune
  rw [hreachable]

theorem resolve_noel : resolve shop carolFiles noel = .ok carolGraph := by
  refine resolve_eq_ok.2 ⟨?_, by decide +kernel, by decide +kernel, by decide +kernel, rfl, ?_⟩
  · have hread : Store.readDocument carolFiles ⟨"/p/Metadata/Event/carol.xml"⟩ =
        .ok ⟨shop.model, carol⟩ := by
      refine Store.readDocument_of_read ?_ (FileTree.read_eq_ok.2
        ⟨["p", "Metadata", "Event", "carol.xml"], by decide +kernel, rfl⟩)
      have hnames : ∀ o ∈ carol, ObjectClass.ofName o.objectClass.name = o.objectClass := by
        decide +kernel
      exact fun o ho => ⟨_, (hnames o ho).symm⟩
    exact loadEvent_eq_ok.2 ⟨_, _, by decide +kernel, by decide +kernel, hread, extract_carol⟩
  · intro id hid
    cases hid
    decide +kernel

theorem newFor_noel : carolGraph.NewFor (carolGraph.copyIds noelId (.ofStart 0)) :=
  ⟨by decide +kernel, by decide +kernel, by decide +kernel⟩

theorem plan_copies_template_noel : resolve shop carolFiles noel = .ok carolGraph ∧
    noel.media = [] ∧ carolGraph.NewFor (carolGraph.copyIds noelId (.ofStart 0)) ∧
    ∃ p ids', plan shop carolFiles false noel (.ofStart 0) = .ok p ids' ∧ p.eventId = noelId ∧
      p.audioFiles = [] ∧ p.copies = [] ∧ p.copied = carolGraph.size ∧ p.pruned = 0 ∧
      ∃ φ, CopiesUnder φ (overrides noel) carolGraph p.event :=
  ⟨resolve_noel, rfl, newFor_noel, plan_copies_template resolve_noel rfl newFor_noel false⟩

end AudioProject.Instantiation
