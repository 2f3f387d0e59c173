import Handout.Archive.Entry
import Handout.Archive.Tar.Header

/-!
# Writing tar archives

Each entry is written as a header block and the blocks of its data.  A name or a link target that is too long for the
block or not in ASCII is given by records in front of it.  The owner of all entries is number zero without a name.
-/

namespace Handout.Archive.Tar

/-- The size of the records in which an archive is padded. -/
def recordSize : Nat := 10240

/-- A number in octal digits, behind zeros. -/
def octal (digits n : Nat) : Bytes :=
  let shown := Bytes.ofString (String.ofList (Nat.toDigits 8 n))
  List.replicate (digits - shown.length) 48 ++ shown

/-- A number field. -/
def writeNumber (size n : Nat) : Bytes := octal (size - 1) n ++ [0]

/-- A text field; characters outside ASCII are replaced, and what does not fit is lost. -/
def writeText (size : Nat) (s : String) : Bytes :=
  let b := (s.toList.map fun c => if c.toNat < 128 then UInt8.ofNat c.toNat else 63).take size
  b ++ List.replicate (size - b.length) 0

/-- Data with zeros behind it up to a multiple of a size. -/
def pad (size : Nat) (b : Bytes) : Bytes := b ++ List.replicate ((size - b.length % size) % size) 0

/-- A header block with blanks in the place of its checksum. -/
def uncheckedBlock (name : String) (mode size : Nat) (type : Char) (link : String) : Bytes :=
  pad blockSize (writeText 100 name ++ writeNumber 8 mode ++ writeNumber 8 0 ++ writeNumber 8 0
    ++ writeNumber 12 size ++ writeNumber 12 0 ++ List.replicate 8 32 ++ [UInt8.ofNat type.toNat]
    ++ writeText 100 link ++ Bytes.ofString "ustar" ++ [0] ++ Bytes.ofString "00")

/-- A header block. -/
def headerBlock (name : String) (mode size : Nat) (type : Char) (link : String) : Bytes :=
  let b := uncheckedBlock name mode size type link
  b.take 148 ++ octal 6 (checksum b) ++ [0] ++ b.drop 155

/-- The length of a record, which counts its own digits; `rest` is the length without them. -/
def recordLength (rest : Nat) : Nat → Nat → Nat
  | 0, guess => guess
  | fuel + 1, guess =>
    let next := rest + (Nat.toDigits 10 guess).length
    if next = guess then guess else recordLength rest fuel next

/-- A record. -/
def writeRecord (key value : String) : Bytes :=
  let body := " " ++ key ++ "=" ++ value ++ "\n"
  let rest := body.utf8ByteSize
  Bytes.ofString (toString (recordLength rest 4 rest) ++ body)

/-- Whether a text needs a record. -/
def needsRecord (s : String) : Bool := 100 < s.length || s.toList.any fun c => 128 ≤ c.toNat

/-- The records in front of a header. -/
def extraBlocks (name link : String) : Bytes :=
  let records := (if needsRecord name then writeRecord "path" name else [])
    ++ (if needsRecord link then writeRecord "linkpath" link else [])
  if records.isEmpty then []
  else headerBlock "././@PaxHeader" 0 records.length 'x' "" ++ pad blockSize records

/-- An entry with the blocks of its data. -/
def writeEntry (e : Entry) : Bytes :=
  match e.node with
  | .directory =>
    let name := if e.name.toList.getLast? = some '/' then e.name else e.name ++ "/"
    extraBlocks name "" ++ headerBlock name 0o755 0 '5' ""
  | .file data executable =>
    extraBlocks e.name "" ++ headerBlock e.name (if executable then 0o755 else 0o644) data.length '0' ""
      ++ pad blockSize data
  | .link target => extraBlocks e.name target ++ headerBlock e.name 0o777 0 '2' target

/-- Writes an archive. -/
def write (es : List Entry) : Bytes :=
  pad recordSize (es.flatMap writeEntry ++ List.replicate (2 * blockSize) 0)

end Handout.Archive.Tar
