import Handout.Archive.Extract
import Handout.Archive.Search
import Handout.Files.Copy
import Handout.Project.Policy

/-!
# Updating a project

The exercise of an archive is put over a project.  Student files are kept, unless the configuration of the project
forces their update; all other files of the archive replace what was there.
-/

namespace Handout.Project

/-- Puts one path of an exercise into a project. -/
def updatePath (policy : Policy) (exercise project path : Path) : Action Unit := do
  let target := project.join ((path.relativeTo? exercise).getD path)
  if ← Action.isDirectory path then Archive.makeDirectory target
  else do
    let classification ← policy.classify target project none true
    if classification = .studentFile then return ()
    Action.during .copy path (Action.copyContent (.path path) path.written (.path target) target.written)

/-- Extracts the exercise of an archive over a project. -/
def update (policy : Policy) (archive project : Path) : Action Unit :=
  Action.withScratch fun scratch => do
    Archive.extract archive scratch
    let exercise ← Archive.findProject archive scratch
    Archive.makeDirectory project
    let levels := (← get).files.height + 1
    Action.foldBelow true (fun _ path => updatePath policy exercise project path) levels () exercise

end Handout.Project
