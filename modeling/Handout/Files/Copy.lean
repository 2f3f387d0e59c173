import Handout.Files.Change

/-!
# Copying and moving files

A file that is copied onto a directory goes into the directory.  A copied directory is merged into an existing one;
links on the way are followed.  When entries of a directory cannot be copied, the others are copied all the same,
and the copy fails at the end with a report on those that could not.
-/

namespace Handout.Action

/-- Copies the content of a file into a file.  Source and target have to be different files. -/
def copyContent (sourceName : FileName) (source : WrittenPath) (targetName : FileName) (target : WrittenPath) :
    Action Unit := do
  if source.path.hasZero || target.path.hasZero then throw .zeroInPath
  let s ← get
  if s.sameEntry source.path target.path then throw (.system (.sameFile sourceName targetName))
  let data ← query fun s => s.content? source
  writeFile target data

/-- Copies a file with its executable flag to a path, or into the directory that the path leads to. -/
def copyFile (sourceName : FileName) (source : WrittenPath) (targetName : FileName) (target : WrittenPath) :
    Action Unit := do
  let s ← get
  if Session.isDirectoryNode (s.node? true target.path) then
    let inside := target.entry source.path.name
    copyContent sourceName source (.written inside.text) inside
    copyFlag source.path inside.path
  else
    copyContent sourceName source targetName target
    copyFlag source.path target.path

/-- What a failure adds to the report on a copied directory, if it is one to report. -/
def reportItems? (source target : WrittenPath) : Failure → Option (List CopyFault)
  | .system (.copies faults) => some faults
  | .system (.sameFile a b) => some ((SystemError.sameFile a b).text.toList.map CopyFault.letter)
  | .system e => some [.failed source.text target.text e.text]
  | _ => none

/-- What an entry of a directory is for copying: links are followed, and one that cannot be followed is an error
unless it merely leads nowhere. -/
def isTreeEntry (w : WrittenPath) : Action Bool :=
  query fun s =>
    match s.node? false w.path with
    | some (.link _) =>
      match s.find true w.path with
      | .ok place => .ok (Session.isDirectoryNode place.node)
      | .error .noEntry => .ok false
      | .error code => .error (refuse code w)
    | node => .ok (Session.isDirectoryNode node)

/-- Copies the entries of a directory into a directory, which is made if need be; `fuel` bounds the nesting. -/
def copyTree : Nat → WrittenPath → WrittenPath → Action Unit
  | 0, _, _ => throw .tooDeep
  | fuel + 1, source, target => do
    let names ← names source
    ensureDirectory target
    let faults ← names.foldlM (fun faults name => do
      let entry := source.entry name
      let place := target.entry name
      tryCatch
        (do
          if ← isTreeEntry entry then copyTree fuel entry place
          else copyFile (.entry name) entry (.written place.text) place
          return faults)
        fun e =>
          match reportItems? entry place e with
          | some items => return faults ++ items
          | none => throw e) []
    if faults.isEmpty then return () else throw (.system (.copies faults))

/-- A bound on the nesting of directories that are reached by following links. -/
def treeDepth (f : Files) : Nat := (f.height + 1) * (maxLinks + 2)

/-- Copies a file or a directory.  Directories are merged, files overwritten, and missing parents of the target
made. -/
def copyMerge (source target : Path) : Action Unit := do
  makeDirectories target.parent
  if ← isDirectory source then
    copyTree (treeDepth (← get).files) source.written target.written
  else copyFile (.path source) source.written (.path target) target.written

/-- Copies a file or a directory into a directory under its own name; gives the path of the copy. -/
def copyInto (source targetDir : Path) : Action Path := do
  let target := targetDir.join (Path.ofString source.name)
  copyMerge source target
  return target

/-- Moves a file to a path, or into the directory that the path leads to, where its name has to be free. -/
def move (source target : Path) : Action Unit := do
  if source.hasZero || target.hasZero then throw .zeroInPath
  let s ← get
  if Session.isDirectoryNode (s.node? true target) then
    let inside := target.written.entry source.name
    if (s.node? true inside.path).isSome then throw (.system (.destinationExists inside.text))
    rename source.written inside
  else rename source.written target.written

end Handout.Action
