import Handout.Bytes

/-!
# Cyclic redundancy check

The 32-bit checksum of zip and gzip: the remainder of a division of polynomials, least significant bit first.
-/

namespace Handout.Archive

/-- One bit of the division. -/
def checksumBit (c : UInt32) : UInt32 := if c &&& 1 = 1 then (c >>> 1) ^^^ 0xEDB88320 else c >>> 1

/-- One byte of the division. -/
def checksumByte (c : UInt32) (b : UInt8) : UInt32 := Nat.repeat checksumBit 8 (c ^^^ b.toUInt32)

/-- The checksum of a byte string. -/
def checksum (data : Bytes) : Nat := (data.foldl checksumByte 0xFFFFFFFF ^^^ 0xFFFFFFFF).toNat

end Handout.Archive
