import Handout.Archive.Entry
import Handout.Archive.Zip.Read

/-!
# Writing zip archives

Each entry is written as a header and its deflated data; the directory and the record at its end follow.  The mode of
an entry stands in its attributes.
-/

namespace Handout.Archive.Zip

/-- The version that is needed to read the entries. -/
def version : Nat := 20

/-- The system on which modes are what they are here. -/
def system : Nat := 3

/-- The least date that can be written, the first of January 1980. -/
def leastDate : Nat := 33

/-- The mode of an entry: its type and who may read, write and execute it. -/
def mode : Node → Nat
  | .directory => 0o40755
  | .file _ executable => if executable then 0o100755 else 0o100644
  | .link _ => 0o120777

/-- The attributes of an entry: the mode, and a mark of directories. -/
def attributes (node : Node) : Nat := mode node * 65536 + if node = .directory then 0x10 else 0

/-- The data of an entry. -/
def dataOf : Node → Bytes
  | .directory => []
  | .file data _ => data
  | .link target => Bytes.ofString target

/-- How the data of an entry is packed. -/
def methodOf : Node → Nat
  | .directory => stored
  | _ => deflated

/-- The packed data of an entry. -/
def packed : Node → Bytes
  | .directory => []
  | node => store (dataOf node)

/-- Whether a name consists of ASCII characters. -/
def isPlainName (name : String) : Bool := name.toList.all fun c => c.toNat < 128

/-- The fields that the header of an entry and the directory have in common. -/
def commonFields (e : Entry) : Bytes :=
  Bytes.le 2 (if isPlainName e.name then 0 else unicodeFlag) ++ Bytes.le 2 (methodOf e.node)
    ++ Bytes.le 2 0 ++ Bytes.le 2 leastDate ++ Bytes.le 4 (checksum (dataOf e.node))
    ++ Bytes.le 4 (packed e.node).length ++ Bytes.le 4 (dataOf e.node).length
    ++ Bytes.le 2 (Bytes.ofString e.name).length

/-- An entry: its header, its name and its data. -/
def localRecord (e : Entry) : Bytes :=
  [0x50, 0x4B, 3, 4] ++ Bytes.le 2 version ++ commonFields e ++ Bytes.le 2 0
    ++ Bytes.ofString e.name ++ packed e.node

/-- The record of an entry in the directory. -/
def directoryRecord (e : Entry) (position : Nat) : Bytes :=
  [0x50, 0x4B, 1, 2] ++ Bytes.le 1 version ++ Bytes.le 1 system ++ Bytes.le 2 version ++ commonFields e
    ++ Bytes.le 2 0 ++ Bytes.le 2 0 ++ Bytes.le 2 0 ++ Bytes.le 2 0 ++ Bytes.le 4 (attributes e.node)
    ++ Bytes.le 4 position ++ Bytes.ofString e.name

/-- The records of entries in the directory, where the first entry begins at the given position. -/
def directoryRecords : Nat → List Entry → Bytes
  | _, [] => []
  | position, e :: es => directoryRecord e position ++ directoryRecords (position + (localRecord e).length) es

/-- The record at the end. -/
def endRecord (count size position : Nat) : Bytes :=
  endSignature ++ Bytes.le 2 0 ++ Bytes.le 2 0 ++ Bytes.le 2 count ++ Bytes.le 2 count ++ Bytes.le 4 size
    ++ Bytes.le 4 position ++ Bytes.le 2 0

/-- Writes an archive. -/
def write (es : List Entry) : Bytes :=
  let records := es.flatMap localRecord
  let directory := directoryRecords 0 es
  records ++ directory ++ endRecord es.length directory.length records.length

end Handout.Archive.Zip
