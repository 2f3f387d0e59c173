import Handout.Command.Run

/-!
# The program

The program loads the places that its arguments name, runs the command on them in memory, and stores what has
changed.  What a command does is decided in `Handout.Command`; here is only the passage between disk and memory.
-/

namespace Handout.Main

/-- What is stored at a location of the disk, with everything below it. -/
partial def load (files : Files) (loc : Location) : IO Files := do
  let root ← IO.FS.realPath "/"
  let place := loc.foldl (fun place name => place / name) root
  let type ← try pure (some (← place.symlinkMetadata).type) catch _ => pure none
  match type with
  | some .dir =>
    let entries ← try place.readDir catch _ => pure #[]
    entries.foldlM (fun files entry => load files (loc ++ [entry.fileName])) (files.put loc .directory)
  | some .file => return files.put loc (.file (← IO.FS.readBinFile place).data.toList false)
  | some .symlink =>
    let target ← try pure (← IO.FS.realPath place).toString catch _ => pure ""
    return files.put loc (.link target)
  | _ => return files

/-- What is stored at a location of the disk and what leads there. -/
def loadWay (files : Files) (loc : Location) : IO Files := do
  let ancestors := (List.range loc.length).map fun n => loc.take n
  let files := ancestors.foldl (fun files dir => if dir.isEmpty then files else files.put dir .directory) files
  load files loc

/-- Who may do what with an executable file. -/
def executableRights : IO.FileRight where
  user := { read := true, write := true, execution := true }
  group := { read := true, execution := true }
  other := { read := true, execution := true }

/-- Stores what has changed. -/
def store (before after : Files) : IO Unit := do
  let root ← IO.FS.realPath "/"
  let removed := before.entries.filter fun e => (after.get? e.1).isNone
  let changed := after.entries.filter fun e => before.get? e.1 != some e.2
  for (loc, node) in removed.mergeSort fun a b => decide (b.1.length ≤ a.1.length) do
    let place := loc.foldl (fun place name => place / name) root
    match node with
    | .directory => IO.FS.removeDir place
    | _ => IO.FS.removeFile place
  for (loc, node) in changed.mergeSort fun a b => decide (a.1.length ≤ b.1.length) do
    let place := loc.foldl (fun place name => place / name) root
    match node with
    | .directory => IO.FS.createDirAll place
    | .file data executable =>
      IO.FS.writeBinFile place ⟨data.toArray⟩
      if executable then IO.setAccessRights place executableRights
    | .link target => throw (IO.userError s!"cannot store a link to {target}")

/-- Runs a command on the disk. -/
def run (invocation : Invocation) : IO UInt32 := do
  let dir := (Path.ofString (← IO.currentDir).toString).parts
  let places := invocation.command.paths.map fun p => ((Path.mk .root dir).join p).normal.parts
  let drafts := places.map fun loc => ((Path.mk .root loc).addSuffix ".tmp").parts
  let files ← (places ++ drafts).foldlM loadWay {}
  let session : Session := { files, workingDir := dir, scratch := ["temporary files"] }
  let (result, after) := (Command.execute invocation.command).perform session
  store files after.files
  let outcome : Command.Outcome := match result with
    | .ok outcome => outcome
    | .error e => { status := 1, report := some e.message }
  for line in Command.lines invocation.verbosity after.log outcome do
    IO.eprintln line.toString
  return outcome.status.toUInt32

end Handout.Main

/-- Reads the arguments and runs the command that they name. -/
def main (args : List String) : IO UInt32 :=
  match Handout.Command.parse args with
  | .ok invocation => Handout.Main.run invocation
  | .error e => do
    IO.eprintln "usage: handout [-h] [-v] COMMAND ..."
    return e.status.toUInt32
