import Handout.Archive.Checksum
import Handout.Archive.Deflate
import Handout.Archive.Zip.Directory

/-!
# Reading zip archives

The data of an entry stands behind a header of its own, which has to agree with the directory and must not run into
the next entry.  Data is stored or deflated; it is cut at the size that the directory gives, and its checksum is
that of the directory.
-/

namespace Handout.Archive.Zip

/-- The method of stored data. -/
def stored : Nat := 0

/-- The method of deflated data. -/
def deflated : Nat := 8

/-- The size of the header of an entry without its texts. -/
def headerSize : Nat := 30

/-- The header of an entry begins before the archive. -/
def invalidPosition : StreamFault := .system (.plain .invalidArgument)

/-- Restored data, and whether it is damaged. -/
def unpack (method : Nat) (packed : Bytes) : Bytes × Bool :=
  if method = stored then (packed, false)
  else
    let r := inflate packed
    (r.output, r.stop == some .damaged)

/-- How much data is restored in order to read `size` bytes: full chunks. -/
def reach (size : Nat) : Nat := (max size 1 + chunk - 1) / chunk * chunk

/-- The content of an entry, given its packed data.  Damage counts if it is met while the data is read; a wrong
checksum is noticed together with the last bytes. -/
def contentOf (e : DirectoryEntry) (packed : Bytes) : Content :=
  let (restored, damaged) := unpack e.method packed
  let data := restored.take e.size
  if damaged && restored.length < reach e.size then .brokenOff data .malformed
  else if checksum data ≠ e.checksum then .brokenOff data.dropLast .malformed
  else ⟨data, none⟩

/-- Opens an entry that ends before the position `limit`. -/
def openEntry (archive : Bytes) (e : DirectoryEntry) (limit : Int) : Except StreamFault Content := do
  if e.position < 0 then throw invalidPosition
  let start := e.position.toNat
  let header := Bytes.slice archive start headerSize
  if header.length ≠ headerSize then throw .malformed
  if header.take 4 ≠ [0x50, 0x4B, 3, 4] then throw .malformed
  let nameLength := Bytes.field header 26 2
  if hasFlag e.flags 0x20 || hasFlag e.flags 0x40 then throw .malformed
  let name ← readName (Bytes.field header 6 2) (Bytes.slice archive (start + headerSize) nameLength)
  if name ≠ e.writtenName then throw .malformed
  let dataStart := min (start + headerSize + nameLength + Bytes.field header 28 2) archive.length
  if limit < ((dataStart + e.packedSize : Nat) : Int) then throw .malformed
  if e.method ≠ stored ∧ e.method ≠ deflated then throw .malformed
  return contentOf e (Bytes.slice archive dataStart e.packedSize)

/-- The positions before which entries have to end: where the next entry begins, or the directory. -/
def limits (es : List DirectoryEntry) (directoryStart : Int) : List Int :=
  let sorted := sortBy (fun a b => decide (b.1.position ≤ a.1.position)) es.zipIdx
  let ends := (directoryStart :: sorted.map fun a => a.1.position).zip (sorted.map Prod.snd)
  (List.range es.length).map fun i => ((ends.find? fun a => a.2 == i).map Prod.fst).getD directoryStart

/-- Whether the mode in the attributes of an entry lets anybody execute it. -/
def DirectoryEntry.isExecutable (e : DirectoryEntry) : Bool := [64, 8, 1].any fun bit => hasFlag (e.attributes / 65536) bit

/-- A member of the archive. -/
def memberOf (archive : Bytes) (e : DirectoryEntry) (limit : Int) : Member where
  name := e.name
  kind := if e.name.toList.getLast? = some '/' then .directory else .file (openEntry archive e limit)
  encrypted := hasFlag e.flags encryptedFlag
  executable := e.isExecutable
  method := some e.method

/-- Reads a zip archive with the given record at its end. -/
def read (archive : Bytes) (r : EndRecord) : Listing :=
  match directory archive r with
  | .error fault => ⟨[], some fault⟩
  | .ok es => ⟨List.zipWith (memberOf archive) es (limits es r.start), none⟩

end Handout.Archive.Zip
