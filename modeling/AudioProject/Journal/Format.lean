import AudioProject.Journal
import AudioProject.Json.Printing
import AudioProject.Json.Reading

/-
  The JSON form of a journal. Reading takes records in either of their forms and ignores members
  that it does not know; only `finished_at` may be missing. Where this reading of JSON is not the
  program's, `Json.Reading` says so.
-/

namespace AudioProject.Journal

/-! ## Writing -/

namespace Deed

def typeName : Deed → String
  | objectWrite _ _ _ => "object_write"
  | mediaCopy _ _ => "media_copy"
  | checkpoint _ => "checkpoint"

def fields : Deed → List (String × Json)
  | objectWrite className id path =>
    [("class", .str className), ("id", .str id.text), ("path", .str path.text)]
  | mediaCopy source dest => [("source", .str source.text), ("dest", .str dest.text)]
  | checkpoint name => [("name", .str name)]

def toJson (d : Deed) : Json := .obj (("type", .str d.typeName) :: d.fields)

end Deed

def Step.toJson (s : Step) : Json :=
  .obj [("kind", s.deed.toJson), ("timestamp", .str s.time.stored)]

def toJson (j : Journal) : Json := .obj
  [("op_id", .str j.operation), ("command", .str j.command),
   ("started_at", .str j.started.stored),
   ("finished_at", (j.finished?.map fun t => Json.str t.stored).getD .null),
   ("phase", .str j.phase.name), ("steps", .arr (j.steps.map Step.toJson))]

def text (j : Journal) : String := j.toJson.pretty

/-! ## Reading -/

def instant? (j : Json) : Option Instant := j.str?.bind Instant.ofString?

def optionalInstant? : Option Json → Option (Option Instant)
  | none => some none
  | some .null => some none
  | some j => (instant? j).map some

/-- The name of a phase, alone or as the only key of an object with a null. -/
def Phase.ofJson? : Json → Option Phase
  | .str s => ofName? s
  | .obj [(s, .null)] => ofName? s
  | _ => none

namespace Deed

/-- A deed of a type, from a record of its other members. -/
def ofFields? (typeName : String) (j : Json) : Option Deed :=
  if typeName = "object_write" then
    match j.record? ["class", "id", "path"] with
    | some [some (.str className), some (.str id), some (.str path)] =>
      match ObjectId.ofString? id with
      | .ok id => some (.objectWrite className id ⟨path⟩)
      | .error _ => none
    | _ => none
  else if typeName = "media_copy" then
    match j.record? ["source", "dest"] with
    | some [some (.str source), some (.str dest)] => some (.mediaCopy ⟨source⟩ ⟨dest⟩)
    | _ => none
  else if typeName = "checkpoint" then
    match j.record? ["name"] with
    | some [some (.str name)] => some (.checkpoint name)
    | _ => none
  else none

/-- The type stands in the member `type`, once, or in front of an array. -/
def ofJson? : Json → Option Deed
  | .obj ms =>
    match ms.filter (·.1 = "type") with
    | [(_, .str typeName)] => ofFields? typeName (.obj (ms.filter (·.1 ≠ "type")))
    | _ => none
  | .arr (.str typeName :: rest) => ofFields? typeName (.arr rest)
  | _ => none

end Deed

def Step.ofJson? (j : Json) : Option Step :=
  match j.record? ["kind", "timestamp"] with
  | some [some kind, some time] => do some ⟨← Deed.ofJson? kind, ← instant? time⟩
  | _ => none

def ofJson? (j : Json) : Option Journal :=
  match j.record? ["op_id", "command", "started_at", "finished_at", "phase", "steps"] with
  | some [some (.str operation), some (.str command), some started, finished, some phase,
      some (.arr steps)] => do
    some { operation := operation, command := command, started := ← instant? started,
           finished? := ← optionalInstant? finished, phase := ← Phase.ofJson? phase,
           steps := ← steps.mapM Step.ofJson? }
  | _ => none

def ofText? (s : String) : Option Journal := (Json.parse? s).bind ofJson?

end AudioProject.Journal
