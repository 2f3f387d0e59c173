import Handout.Files.Traverse

/-!
# Walking an exercise

The files of an exercise are visited directory by directory: first the files of a directory, then its
subdirectories, each in order of their names.  Some names are skipped, and so are hidden directories and directories
that hold a file named `.tmcignore`.  These rules do not apply to the exercise itself.  Links to directories are not
followed.
-/

namespace Handout.Exercise

/-- Names of files and directories that are never processed. -/
def skippedNames : List String := [".tmcrc", "metadata.yml", "private"]

/-- A directory that holds a file of this name is not processed. -/
def ignoreFileName : String := ".tmcignore"

/-- Whether a word occurs in a list of characters. -/
def occurs (word : List Char) : List Char → Bool
  | [] => word.isEmpty
  | c :: r => word.isPrefixOf (c :: r) || occurs word r

/-- Whether a file or directory is skipped for its name. -/
def isSkipped (name : String) : Bool := skippedNames.contains name || occurs "Hidden".toList name.toList

/-- Whether a directory is hidden. -/
def isHidden (name : String) : Bool := name.toList.head? = some '.'

/-- Whether a directory is left out together with its contents.  One that may not be inspected is noted. -/
def isPruned (dir : Path) : Action Bool := do
  if isHidden dir.name || isSkipped dir.name then return true
  tryCatch (Action.isFile (dir.child ignoreFileName)) fun
    | .system e => do
      Action.note .warning .treeProcessor s!"skipping unreadable directory {dir.toString}: {e.reason}"
      return true
    | e => throw e

/-- The names in a directory of an exercise; none, with a note, if it cannot be listed. -/
def readNames (dir : Path) : Action (List String) :=
  tryCatch (Action.names dir.written) fun
    | .system e => do
      Action.note .warning .treeProcessor s!"skipping unreadable entry {dir.toString}: {e.reason}"
      return []
    | e => throw e

/-- Visits the files under a directory that are processed; `levels` bounds the nesting. -/
def foldFiles {σ : Type} (visit : σ → Path → Action σ) : Nat → σ → Path → Action σ
  | 0, acc, _ => return acc
  | levels + 1, acc, dir => do
    let names ← readNames dir
    let s ← get
    let leadsToDirectory (name : String) : Bool := Session.isDirectoryNode (s.node? true (dir.child name))
    let dirs ← (names.filter leadsToDirectory).filterM fun name => return !(← isPruned (dir.child name))
    let files := (sortNames (names.filter fun name => !leadsToDirectory name)).filter fun name => !isSkipped name
    let acc ← files.foldlM (fun acc name => visit acc (dir.child name)) acc
    (sortNames dirs).foldlM (fun acc name => do
      let s ← get
      if Session.isLinkNode (s.node? false (dir.child name)) then return acc
      foldFiles visit levels acc (dir.child name)) acc

/-- The files under a directory that are processed. -/
def files (root : Path) : Action (List Path) := do
  foldFiles (fun acc p => return acc ++ [p]) ((← get).files.height + 1) [] root

end Handout.Exercise
