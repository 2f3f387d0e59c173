import Handout.Archive.Tar.Read
import Handout.Archive.Zip.Read

/-!
# Reading archives

The format of an archive is detected from its content.  A zip archive is told by the record at its end, which wins
over everything else; a tar archive is told by its first header, after it has been restored if it is compressed.
-/

namespace Handout.Archive

/-- The formats of archives. -/
inductive Format where
  | zip
  | tar
deriving DecidableEq, Repr

/-- The name of a format. -/
def Format.name : Format → String
  | zip => "zip"
  | tar => "tar"

/-- Reads a tar archive; nothing if the data is none. -/
def readTar? (s : Stream) : Except Failure (Option Listing) :=
  match Tar.read s with
  | .ok l => .ok (some l)
  | .error (.stream .cutShort) => .error .truncatedStream
  | .error _ => .ok none

/-- Reads an archive; nothing if the data is neither a zip nor a tar archive. -/
def read? (data : Bytes) : Except Failure (Option (Format × Listing)) :=
  match Zip.findEnd data with
  | .ok r => .ok (some (.zip, Zip.read data r))
  | .error .multipleDisks => .error .multipleDisks
  | .error .absent => do
    let restored ← match gunzip? data with
      | some s => readTar? s
      | none => pure none
    match restored with
    | some l => return some (.tar, l)
    | none => return (← readTar? ⟨data, none⟩).map fun l => (.tar, l)

end Handout.Archive
