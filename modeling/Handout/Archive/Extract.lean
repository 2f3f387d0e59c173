import Handout.Archive.Read
import Handout.Files.Change

/-!
# Extracting archives

The members of an archive are put under a target directory.  A name that is absolute or has a `..` component is
refused; so nothing is ever written outside the target.  Files that file managers leave behind are skipped, and so is
what is neither a regular file nor a directory.
-/

namespace Handout.Archive

/-- Names of files and directories that are never extracted. -/
def noiseNames : List String := [".DS_Store", "desktop.ini", "Thumbs.db", ".directory", "__MACOSX"]

/-- The path of a member below the target; nothing for the target itself. -/
def memberPath (archive : Path) (name : String) : Except Failure (Option Path) :=
  let path := Path.ofString (String.ofList (name.toList.map fun c => if c = '\\' then '/' else c))
  if path.isAbsolute || path.parts.contains ".." then .error (.archive archive (.unsafeMember name))
  else .ok (if path.parts.isEmpty then none else some path)

/-- Makes a directory with its parents. -/
def makeDirectory (dir : Path) : Action Unit := Action.during .createDirectory dir (Action.makeDirectories dir)

/-- Writes the content of a member to a file, as far as it can be read. -/
def writeMember (archive target : Path) (content : Content) : Action Unit := do
  makeDirectory target.parent
  Action.during .write target do
    Action.writeFile target.written content.data
    match content.fault with
    | some fault => throw (fault.failure archive)
    | none => return ()

/-- Extracts a member to a path. -/
def extractMember (archive target : Path) (m : Member) : Action Unit := do
  if m.encrypted then throw (.archive archive (.encryptedMember m.name))
  match m.kind with
  | .directory => makeDirectory target
  | .file (.ok content) => writeMember archive target content
  | .file (.error fault) => throw (fault.failure archive)
  | .link _ | .special =>
    Action.note .warning .archive
      s!"skipping {m.name} in {archive.toString}: not a regular file or directory"

/-- Extracts the members of a listing, and then fails if the listing does. -/
def extractListing (archive target : Path) (l : Listing) : Action Unit := do
  l.members.forM fun m => do
    match ← Action.query fun _ => memberPath archive m.name with
    | none => return ()
    | some path =>
      if path.parts.any noiseNames.contains then return ()
      extractMember archive (target.join path) m
  match l.fault with
  | some fault => throw (fault.failure archive)
  | none => return ()

/-- Extracts an archive into a directory, which is made if need be. -/
def extract (archive target : Path) : Action Unit := do
  makeDirectory target
  let data ← Action.during .read archive (Action.readFile archive)
  match ← Action.query fun _ => read? data with
  | some (_, l) => extractListing archive target l
  | none => throw (.archive archive .unknownFormat)

end Handout.Archive
