import Handout.Exercise.Derive
import Handout.Project.Policy

/-!
# Moving student files

The student files of a project move to the same places under another directory.
-/

namespace Handout.Exercise

/-- Moves one path of a project, if it is a student file. -/
def moveFile (policy : Policy) (source target path : Path) : Action Unit := do
  if !(← Action.isFile path) then return ()
  if !(← policy.isStudentFile path source none) then return ()
  let place := mirrored source target path
  makeParent place
  Action.during .move path (Action.move path place)

/-- Moves the student files of a project. -/
def moveFiles (policy : Policy) (source target : Path) : Action Unit := do
  Action.foldBelow true (fun _ path => moveFile policy source target path)
    (nesting (← get).files target) () source

end Handout.Exercise
