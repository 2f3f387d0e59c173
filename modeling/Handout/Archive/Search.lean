import Handout.Files.Traverse
import Handout.Project.Ecosystem

/-!
# Finding projects

An extracted archive may hold its project in some subdirectory.  The first root by depth and then by name is taken.
-/

namespace Handout.Archive

/-- The root of a project at or below a directory. -/
def findProject? (dir : Path) : Action (Option Path) := Action.findDirectory dir Ecosystem.isProjectRoot

/-- The root of the project in a directory into which an archive was extracted. -/
def findProject (archive dir : Path) : Action Path := do
  match ← findProject? dir with
  | some root => return root
  | none => throw (.noProjectRoot archive)

end Handout.Archive
