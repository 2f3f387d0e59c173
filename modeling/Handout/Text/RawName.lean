import Handout.Bytes
import Handout.Text.CodePoint

/-!
# Names in unknown encodings

An archive may hold names that are not valid UTF-8.  They are read as UTF-8 all the same, and each byte that is part
of no character is kept as a stand-in, a character of a private area.  In a message a stand-in is shown as the lone
surrogate that is customary for such a byte.
-/

namespace Handout.RawName

/-- The first of the stand-ins. -/
def firstStandIn : Nat := 0x10DC00

/-- The character that stands for a byte. -/
def standIn (b : UInt8) : Char := Char.ofNat (firstStandIn + b.toNat)

/-- The character at the beginning of a byte string, and its length, if there is one. -/
def firstChar? (b : Bytes) : Option (Char × Nat) :=
  [1, 2, 3, 4].findSome? fun n =>
    match (Bytes.toString? (b.take n)).map String.toList with
    | some [c] => some (c, n)
    | _ => none

/-- Reads at most `n` characters. -/
def readChars : Nat → Bytes → List Char
  | 0, _ => []
  | _, [] => []
  | n + 1, b :: r =>
    match firstChar? (b :: r) with
    | some (c, length) => c :: readChars n ((b :: r).drop length)
    | none => standIn b :: readChars n r

/-- Reads a name. -/
def ofBytes (b : Bytes) : String := (Bytes.toString? b).getD (String.ofList (readChars b.length b))

/-- A character as it is shown. -/
def shownChar (c : Nat) : Nat :=
  if firstStandIn + 0x80 ≤ c ∧ c ≤ firstStandIn + 0xFF then 0xDC00 + (c - firstStandIn) else c

/-- A name as it is shown. -/
def shown (name : String) : Text := (Text.ofString name).map shownChar

end Handout.RawName
