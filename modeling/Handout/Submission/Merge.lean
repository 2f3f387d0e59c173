import Handout.Files.Copy
import Handout.Files.Traverse
import Handout.Project.Ecosystem

/-!
# Merging the parts of a package

A package is put together from the submitted project, the instructor's clone of the exercise, and the project that
holds the tests, by copies that overlay one another.  The order of the copies depends on the style.
-/

namespace Handout.Submission

/-- The directories from which a package is put together, and the one that is to hold it. -/
structure Sources where
  received : Path
  clone : Path
  tests : Path
  package : Path

/-- Copies a file or a directory into a directory. -/
def copyInto (source dir : Path) : Action Unit := Action.during .copy source (discard (Action.copyInto source dir))

/-- Copies a file or a directory to a path. -/
def copyMerge (source target : Path) : Action Unit := Action.during .copy source (Action.copyMerge source target)

/-- Copies a file or a directory, if there is one, to a path. -/
def copyIfExists (source target : Path) : Action Unit := do
  if ← Action.pathExists source then copyMerge source target

/-- Copies the files at the top of a directory into a directory. -/
def copyTopFiles (dir target : Path) : Action Unit := do
  let files ← Action.during .list dir (Action.filesIn dir)
  files.forM fun p => copyInto p target

/-- Copies paths of a project to the same places in a package. -/
def overlay (project package : Path) (paths : List Path) : Action Unit :=
  paths.forM fun p => copyIfExists (project.join p) (package.join p)

/-- Copies paths of a project into a package under their own names. -/
def gather (project package : Path) (paths : List Path) : Action Unit :=
  paths.forM fun p => do
    if ← Action.pathExists (project.join p) then copyInto (project.join p) package

/-- Merges in the style of Maven: sources under `src/main`, tests under `src/test`. -/
def mergeMaven (s : Sources) (layout : PackagingLayout) : Action Unit := do
  let main := Path.ofString "src/main"
  let test := Path.ofString "src/test"
  copyInto (s.clone.child "pom.xml") s.package
  copyIfExists (s.clone.join main) (s.package.join main)
  copyIfExists (s.tests.join test) (s.package.join test)
  overlay s.received s.package layout.studentPaths
  overlay s.tests s.package layout.exercisePaths
  copyTopFiles s.clone s.package

/-- Merges in the style of make: sources over those of the clone. -/
def mergeMake (s : Sources) (layout : PackagingLayout) : Action Unit := do
  copyIfExists (s.clone.child "src") (s.package.child "src")
  copyIfExists (s.clone.child "test") (s.package.child "test")
  overlay s.received s.package layout.studentPaths
  copyTopFiles s.tests s.package

/-- Merges in the common style: the parts side by side. -/
def mergeGeneric (s : Sources) (layout : PackagingLayout) : Action Unit := do
  copyIfExists (s.clone.child "lib") (s.package.child "lib")
  gather s.received s.package layout.studentPaths
  gather s.tests s.package layout.exercisePaths
  copyTopFiles s.clone s.package

/-- Merges in a style. -/
def merge : PackagingStyle → Sources → PackagingLayout → Action Unit
  | .maven => mergeMaven
  | .make => mergeMake
  | .generic => mergeGeneric

end Handout.Submission
