import Handout.Archive.Create
import Handout.Project.Policy

/-!
# Compressing a project for submission

A student sends the student files of a project, with the directories that lead to them, and the files at the top of
the project, by which it is recognized.
-/

namespace Handout.Submission

/-- The directories below a project that lead to one of its files. -/
def directoriesTo (project : Path) (files : List Path) : List Path :=
  (files.flatMap fun p => p.parents.filter fun dir => dir.parents.contains project).eraseDups

/-- The student files of a project and the directories that lead to them, in order. -/
def studentPaths (policy : Policy) (project : Path) : Action (List Path) := do
  let files ← Action.below project fun p => do
    if ← Action.isFile p then policy.isStudentFile p project none else return false
  return Path.sort (directoriesTo project files ++ files)

/-- The paths of a project that are submitted, in order. -/
def submittedPaths (policy : Policy) (project : Path) : Action (List Path) := do
  let top ← Action.during .list project (Action.filesIn project)
  let paths ← studentPaths policy project
  return Path.sort (paths ++ top).eraseDups

/-- Writes a zip archive of the student's part of a project, below a directory named like the project. -/
def compress (policy : Policy) (project output : Path) : Action Unit := do
  Action.note .info .archive s!"compressing student files of {project.toString}"
  let name := (← Action.resolve project).name
  let top := if name.isEmpty then none else some (Path.ofString name)
  let paths ← submittedPaths policy project
  Archive.create .zip project output top (some paths)

end Handout.Submission
