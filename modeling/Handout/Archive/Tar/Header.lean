import Handout.Archive.Stream
import Handout.Text.Numeral

/-!
# Tar headers

A tar archive is a sequence of blocks of 512 bytes.  A header block holds the name, the size and the type of a
member, in fixed fields and with a checksum.  A header may be preceded by headers that only carry information about
it: a long name, or records with a name or a size; records may also concern all headers that follow.
-/

namespace Handout.Archive.Tar

/-- The size of a block. -/
def blockSize : Nat := 512

/-- The size of the blocks that hold `n` bytes; a negative number needs none. -/
def blocksFor (n : Int) : Int := (n + 511).fdiv 512 * 512

/-- Why a header cannot be read. -/
inductive HeaderFault where
  /-- The data ends here. -/
  | empty
  /-- The data ends within the block. -/
  | truncated
  /-- A block of zeros marks the end of the archive. -/
  | zeros
  | invalid
  /-- A header that has to follow another one is missing. -/
  | missing
  | stream (fault : StreamFault)
deriving DecidableEq, Repr

/-- The types of members that matter for reading. -/
inductive EntryType where
  | regular
  | hardLink
  | symbolicLink
  | directory
  | device
  | longName
  | longLink
  | records
  | globalRecords
  | unknown
deriving DecidableEq, Repr

/-- The type for a type byte. -/
def EntryType.ofByte (b : UInt8) : EntryType :=
  match Char.ofNat b.toNat with
  | '0' | '7' => regular
  | '1' => hardLink
  | '2' => symbolicLink
  | '5' => directory
  | '3' | '4' | '6' => device
  | 'L' => longName
  | 'K' => longLink
  | 'x' | 'X' => records
  | 'g' => globalRecords
  | c => if c.toNat = 0 then regular else unknown

/-- Whether data blocks follow the header of a member. -/
def EntryType.hasData : EntryType → Bool
  | regular | unknown => true
  | _ => false

/-- What a header says. -/
structure Header where
  name : String
  size : Int
  type : EntryType
  link : String
  executable : Bool
deriving DecidableEq, Repr

/-- The name in a field, which ends at a zero byte. -/
def nameField (b : Bytes) : String := RawName.ofBytes (b.takeWhile (· != 0))

/-- The number in a field: octal digits, or a binary number behind a mark. -/
def numberField (b : Bytes) : Except HeaderFault Int :=
  let rest := b.drop 1
  if b.headD 0 = 0x80 then .ok (Bytes.readBE rest)
  else if b.headD 0 = 0xFF then .ok ((Bytes.readBE rest : Int) - Nat.pow 256 rest.length)
  else
    let digits := b.takeWhile (· != 0)
    let text := Numeral.trim (digits.map fun c => Char.ofNat c.toNat)
    if digits.any fun c => 0x80 ≤ c.toNat then .error .invalid
    else if text.isEmpty then .ok 0
    else
      match Numeral.read? 8 text with
      | some n => .ok n
      | none => .error .invalid

/-- The block with blanks in the place of the checksum. -/
def blankChecksum (b : Bytes) : Bytes := b.take 148 ++ List.replicate 8 32 ++ b.drop 156

/-- The sum of the bytes of a header. -/
def checksum (b : Bytes) : Nat := (blankChecksum b).foldl (fun sum c => sum + c.toNat) 0

/-- The sum of the bytes of a header, taken as signed numbers. -/
def signedChecksum (b : Bytes) : Int :=
  (blankChecksum b).foldl (fun sum c => sum + if c.toNat < 128 then (c.toNat : Int) else (c.toNat : Int) - 256) 0

/-- A name without slashes at its end. -/
def trimSlashes (s : String) : String := String.ofList (s.toList.reverse.dropWhile (· == '/')).reverse

/-- A name without one slash at its end. -/
def dropSlash (s : String) : String :=
  String.ofList (if s.toList.getLast? = some '/' then s.toList.dropLast else s.toList)

/-- A field of a block. -/
def fieldOf (b : Bytes) (start n : Nat) : Bytes := Bytes.slice b start n

/-- The name of a header: that of the block, with the first part that is stored elsewhere. -/
def joinName (type : EntryType) (first name : String) : String :=
  if first.isEmpty || type = .longName || type = .longLink then name else first ++ "/" ++ name

/-- Reads a header from a block. -/
def Header.ofBlock (b : Bytes) : Except HeaderFault Header := do
  if b.isEmpty then throw .empty
  if b.length ≠ blockSize then throw .truncated
  if b.all (· == 0) then throw .zeros
  let expected ← numberField (fieldOf b 148 8)
  if expected ≠ checksum b ∧ expected ≠ signedChecksum b then throw .invalid
  let mode ← numberField (fieldOf b 100 8)
  discard (numberField (fieldOf b 108 8))
  discard (numberField (fieldOf b 116 8))
  let size ← numberField (fieldOf b 124 12)
  discard (numberField (fieldOf b 136 12))
  discard (numberField (fieldOf b 329 8))
  discard (numberField (fieldOf b 337 8))
  let name := nameField (fieldOf b 0 100)
  let written := EntryType.ofByte (b.getD 156 0)
  let type := if b.getD 156 0 = 0 ∧ name.toList.getLast? = some '/' then .directory else written
  let name := if type = .directory then trimSlashes name else name
  return {
    name := joinName type (nameField (fieldOf b 345 155)) name
    size
    type
    link := nameField (fieldOf b 157 100)
    executable := [64, 8, 1].any fun bit => mode.fdiv bit % 2 == 1 }

end Handout.Archive.Tar
