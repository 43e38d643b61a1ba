import AudioProject.Batch.Records
import AudioProject.Command.Invocation
import AudioProject.Config

/-
  What a command line may read outside of a project's own directories. Whoever brings files in
  from a disk brings these, and the files that a plan names once the plan is there.
-/

namespace AudioProject.Command

namespace Task

def sources : Task → List Path
  | .instantiate r _ => r.media.map MediaSource.source
  | .apply plan _ => [plan]
  | _ => []

/-- The media of a plan that has been brought in. -/
def planSources (t : FileTree) : Task → List Path
  | .apply path _ =>
    let dir := path.parent?.getD ⟨""⟩
    match (t.readText path).toOption.bind Batch.Plan.ofText? with
    | none => []
    | some p => p.events.flatMap fun e =>
      e.media.filterMap fun text => (Batch.media dir e.name text).toOption.map MediaSource.source
  | _ => []

end Task

end AudioProject.Command
