/-!
# Byte strings

The content of files and archives is a list of bytes.  Besides the passage to and from text in UTF-8 this module
holds the fixed-width integers of the binary formats, least significant byte first.
-/

namespace Handout

/-- The content of a file. -/
abbrev Bytes := List UInt8

namespace Bytes

/-- The UTF-8 form of a text. -/
def ofString (s : String) : Bytes := s.toUTF8.data.toList

/-- The text whose UTF-8 form is given, if there is one. -/
def toString? (b : Bytes) : Option String := String.fromUTF8? ⟨b.toArray⟩

/-- A number on `n` bytes, least significant byte first; what does not fit is lost. -/
def le : Nat → Nat → Bytes
  | 0, _ => []
  | n + 1, v => UInt8.ofNat (v % 256) :: le n (v / 256)

/-- The number that is written least significant byte first. -/
def readLE : Bytes → Nat
  | [] => 0
  | b :: r => b.toNat + 256 * readLE r

/-- The number that is written most significant byte first. -/
def readBE (b : Bytes) : Nat := b.foldl (fun v d => 256 * v + d.toNat) 0

/-- The bytes at positions `from` to `from + n - 1`, as far as there are any. -/
def slice (b : Bytes) (start n : Nat) : Bytes := (b.drop start).take n

/-- The number on the `n` bytes at position `start`, least significant byte first. -/
def field (b : Bytes) (start n : Nat) : Nat := readLE (slice b start n)

end Bytes

end Handout
