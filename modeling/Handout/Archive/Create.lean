import Handout.Archive.Read
import Handout.Archive.Tar.Write
import Handout.Archive.Zip.Write
import Handout.Files.Change
import Handout.Files.Traverse

/-!
# Creating archives

An archive is made of the contents of a directory, or of some paths in it.  The entries are named relative to the
directory, or below a top-level directory of their own.  The archive is written to a sibling of the output that is
renamed into place at the end.
-/

namespace Handout.Archive

/-- The name of an entry in a zip archive, if it has one. -/
def zipName? (name : Path) : Option String :=
  let n := name.normal
  if n.parts.isEmpty then if n.isAbsolute then none else some "."
  else some ("/".intercalate n.parts)

/-- The name of an entry in a tar archive. -/
def tarName (name : Path) : String := if name.isAbsolute then "/".intercalate name.parts else name.toString

/-- The entry of a zip archive for a path; links are followed. -/
def zipEntry (source name : Path) : Action Entry := do
  match (← Action.locate true source.written).node with
  | none => throw (refuse .noEntry source.written)
  | some node =>
    match zipName? name with
    | none => throw .emptyEntryName
    | some text => return ⟨if node = .directory then text ++ "/" else text, node⟩

/-- The entry of a tar archive for a path; links are kept. -/
def tarEntry (source name : Path) : Action Entry := do
  match (← Action.locate false source.written).node with
  | none => throw (refuse .noEntry source.written)
  | some node => return ⟨tarName name, node⟩

/-- Whether two paths from the working directory are the same by name. -/
def isSameName (p q : Path) : Action Bool := do
  let dir : Path := ⟨.root, (← get).workingDir⟩
  return (dir.join p).normal == (dir.join q).normal

/-- The entries for a path in an archive that is being written to `draft`; a tar archive leaves itself out. -/
def entriesFor (format : Format) (draft source name : Path) : Action (List Entry) := do
  match format with
  | .zip => return [← zipEntry source name]
  | .tar => if ← isSameName source draft then return [] else return [← tarEntry source name]

/-- The entries for a path below the source, under the name that it has there. -/
def entriesBelow (format : Format) (draft source : Path) (top : Option Path) (p : Path) : Action (List Entry) :=
  match p.relativeTo? source with
  | none => throw (.notUnder p source)
  | some relative => entriesFor format draft p (match top with
    | some name => name.join relative
    | none => relative)

/-- The entries of an archive: the top-level directory, if there is one, and those for the given paths. -/
def entries (format : Format) (draft source : Path) (top : Option Path) (paths : List Path) :
    Action (List Entry) := do
  let first ← match top with
    | some name => entriesFor format draft source name
    | none => pure []
  let rest ← paths.mapM (entriesBelow format draft source top)
  return first ++ rest.flatten

/-- The bytes of an archive with the given entries. -/
def encode : Format → List Entry → Bytes
  | .zip, es => Zip.write es
  | .tar, es => Tar.write es

/-- Creates an archive from a directory.  By default everything below the directory is included. -/
def create (format : Format) (source output : Path) (top : Option Path) (paths : Option (List Path)) :
    Action Unit := do
  let paths ← match paths with
    | some ps => pure ps
    | none => Action.descendants source false true
  Action.note .info .archive s!"writing {format.name} archive {output.toString}"
  Action.during .writeArchive output <| Action.overwriteAtomic output ".tmp" fun draft => do
    let es ← entries format draft.path source top paths
    Action.writeFile draft (encode format es)

end Handout.Archive
