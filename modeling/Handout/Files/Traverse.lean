import Handout.Files.Look

/-!
# Traversals

`foldBelow` visits everything below a directory, a directory before its entries and the entries in order of their
names.  `foldByDepth` visits a directory and its subdirectories by depth, which serves to list them and to look for
one.  Links are not followed.  A visitor may change the files; so each directory is listed only when its turn comes.
-/

namespace Handout.Action

/-- Visits everything below a directory; `levels` bounds the nesting. -/
def foldBelow {σ : Type} (sorted : Bool) (visit : σ → Path → Action σ) : Nat → σ → Path → Action σ
  | 0, acc, _ => return acc
  | levels + 1, acc, dir => do
    if (← isDirectory dir) && !(← isLink dir) then
      let names ← names dir.written
      let names := if sorted then sortNames names else names
      names.foldlM (fun acc name => do
        let acc ← visit acc (dir.child name)
        foldBelow sorted visit levels acc (dir.child name)) acc
    else return acc

/-- Everything below a directory that satisfies a test. -/
def below (dir : Path) (keep : Path → Action Bool) : Action (List Path) := do
  let levels := (← get).files.height + 1
  foldBelow true (fun acc p => return if ← keep p then acc ++ [p] else acc) levels [] dir

/-- A path, if wanted, and everything below it. -/
def descendants (top : Path) (includeTop sorted : Bool) : Action (List Path) := do
  let levels := (← get).files.height + 1
  let start := if includeTop then [top] else []
  foldBelow sorted (fun acc p => return acc ++ [p]) levels start top

/-- The entries of a directory that satisfy a test, in order of their names. -/
def entriesWhere (dir : Path) (test : Path → Action Bool) : Action (List Path) := do
  let names ← names dir.written
  let kept ← names.filterM fun name => test (dir.child name)
  return (sortNames kept).map dir.child

/-- The regular files in a directory. -/
def filesIn (dir : Path) : Action (List Path) := entriesWhere dir isFile

/-- The directories in a directory that are no links. -/
def directoriesIn (dir : Path) : Action (List Path) :=
  entriesWhere dir fun p => do
    if ← isDirectory p then return !(← isLink p) else return false

/-- The directories in a directory, to be visited later; none, with a note, if it cannot be listed. -/
def readableDirectoriesIn (dir : Path) : Action (List Path) :=
  tryCatch (directoriesIn dir) fun
    | .system e => do
      note .warning .archive s!"skipping unreadable directory {dir.toString}: {e.reason}"
      return []
    | e => throw e

/-- Visits directories and their subdirectories by depth and, within a depth, in order of their paths, until a visit
tells to stop; `steps` bounds the number of visits. -/
def foldByDepth {σ : Type} (visit : σ → Path → Action (Bool × σ)) : Nat → σ → List Path → Action σ
  | 0, acc, _ => return acc
  | _, acc, [] => return acc
  | steps + 1, acc, dir :: queue => do
    let (stop, acc) ← visit acc dir
    if stop then return acc
    let children ← readableDirectoriesIn dir
    foldByDepth visit steps acc (queue ++ children)

/-- A bound on the number of directories. -/
def directoryBound : Action Nat := return (← get).files.entries.length + 2

/-- A directory and its subdirectories by depth. -/
def directoriesByDepth (top : Path) : Action (List Path) := do
  foldByDepth (fun acc dir => return (false, acc ++ [dir])) (← directoryBound) [] [top]

/-- The first directory by depth that satisfies a test. -/
def findDirectory (top : Path) (test : Path → Action Bool) : Action (Option Path) := do
  foldByDepth (fun _ dir => do
    if ← test dir then return (true, some dir) else return (false, none)) (← directoryBound) none [top]

end Handout.Action
