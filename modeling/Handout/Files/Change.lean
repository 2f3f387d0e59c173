import Handout.Files.Look

/-!
# Changing files

The requests that change stored files: making directories, writing, removing and renaming.  Each either fails and
changes nothing or changes exactly one entry (renaming: two).  `Action.overwriteAtomic` writes a file by way of a
sibling that is renamed into place at the end and removed on failure.
-/

namespace Handout.Action

/-- Where a path leads. -/
def locate (follow : Bool) (w : WrittenPath) : Action Place :=
  query fun s =>
    if w.path.hasZero then .error .zeroInPath
    else
      match s.find follow w.path with
      | .ok place => .ok place
      | .error code => .error (refuse code w)

/-- Makes a directory in an existing one. -/
def makeDirectory (w : WrittenPath) : Action Unit := do
  let place ← locate false w
  match place.node with
  | some _ => throw (refuse .fileExists w)
  | none => edit fun f => f.put place.location .directory

/-- Makes a directory unless the path leads to one. -/
def ensureDirectory (w : WrittenPath) : Action Unit :=
  tryCatch (makeDirectory w) fun
    | .system e => do
      let s ← get
      if Session.isDirectoryNode (s.node? true w.path) then return ()
      throw (.system e)
    | e => throw e

/-- The path of the first `n` components. -/
def pathPart (p : Path) (n : Nat) : Path := ⟨p.anchor, p.parts.take n⟩

/-- Makes the directory of the first `n` components of a path, and before that its parents as far as they are
missing. -/
def makePart (p : Path) : Nat → Action Unit
  | 0 => ensureDirectory (pathPart p 0).written
  | n + 1 =>
    let w := (pathPart p (n + 1)).written
    tryCatch (makeDirectory w) fun
      | .system (.call .noEntry _) => do
        makePart p n
        ensureDirectory w
      | .system e => do
        let s ← get
        if Session.isDirectoryNode (s.node? true w.path) then return ()
        throw (.system e)
      | e => throw e

/-- Makes a directory with its parents, as far as they are missing. -/
def makeDirectories (p : Path) : Action Unit := makePart p p.parts.length

/-- Makes a file with the given content, or gives a file this content. -/
def writeFile (w : WrittenPath) (data : Bytes) : Action Unit := do
  let place ← locate true w
  match place.node with
  | none => edit fun f => f.put place.location (.file data false)
  | some (.file _ executable) => edit fun f => f.put place.location (.file data executable)
  | some _ => throw (refuse .isDirectory w)

/-- Gives a file the executable flag of another one. -/
def copyFlag (source target : Path) : Action Unit := do
  let s ← get
  match s.node? true source with
  | some (.file _ executable) =>
    let place ← locate true target.written
    match place.node with
    | some (.file data _) => edit fun f => f.put place.location (.file data executable)
    | _ => return ()
  | _ => return ()

/-- Removes a file or a link. -/
def removeFile (w : WrittenPath) : Action Unit := do
  let place ← locate false w
  match place.node with
  | none => throw (refuse .noEntry w)
  | some .directory => throw (refuse .isDirectory w)
  | some _ => edit fun f => f.erase place.location

/-- Puts a file or a link in another place, where it replaces what is no directory. -/
def rename (source target : WrittenPath) : Action Unit := do
  if source.path.hasZero || target.path.hasZero then throw .zeroInPath
  let s ← get
  let fail {α : Type} (code : SystemCode) : Action α := throw (.system (.rename code source.text target.text))
  match s.find false source.path, s.find false target.path with
  | .error code, _ => fail code
  | _, .error code => fail code
  | .ok ⟨_, none⟩, _ => fail .noEntry
  | .ok ⟨old, some node⟩, .ok place =>
    match node, place.node with
    | .directory, _ => fail .isDirectory
    | _, some .directory => fail .isDirectory
    | _, _ => if old = place.location then return () else edit fun f => (f.erase old).put place.location node

/-- Removes what a failure left of a sibling, if anything. -/
def removeDraft (draft : WrittenPath) : Action Unit :=
  tryCatch (removeFile draft) fun
    | .system (.call .noEntry _) => return ()
    | e => throw e

/-- Writes a file by way of a sibling with the given suffix.  The body, which writes the sibling, may fail; then the
sibling is removed and the file stays as it is. -/
def overwriteAtomic (p : Path) (suffix : String) (body : WrittenPath → Action Unit) : Action Unit := do
  let draft := (p.addSuffix suffix).written
  onFailure
    (do
      writeFile draft []
      body draft
      rename draft p.written)
    (removeDraft draft)

/-- Removes a directory with everything in it. -/
def removeTree (loc : Location) : Action Unit := edit fun f => f.eraseTree loc

/-- Works with the temporary directory, which is removed in any case. -/
def withScratch {α : Type} (body : Path → Action α) : Action α := do
  let loc := (← get).scratch
  edit fun f => f.put loc .directory
  let result ← onFailure (body ⟨.root, loc⟩) (removeTree loc)
  removeTree loc
  return result

end Handout.Action
