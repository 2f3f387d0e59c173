import Handout.Bytes
import Handout.Text.CodePoint

/-!
# Encodings of source files

Text in an encoding that extends ASCII is handled byte by byte, so it is read as Latin-1: one code point per byte.
UTF-16 and UTF-32 are decoded; a surrogate that stands alone is let through, so that encoding again restores the
bytes (`encode` undoes `decode?`).
-/

namespace Handout

/-- The order of the bytes of a code unit. -/
inductive ByteOrder where
  | little
  | big
deriving DecidableEq, Repr

/-- How the bytes of a file stand for code points. -/
inductive Encoding where
  | latin1
  | utf16 (order : ByteOrder)
  | utf32 (order : ByteOrder)
deriving DecidableEq, Repr

namespace Encoding

/-- The name of an encoding. -/
def name : Encoding → String
  | latin1 => "latin-1"
  | utf16 .little => "utf-16-le"
  | utf16 .big => "utf-16-be"
  | utf32 .little => "utf-32-le"
  | utf32 .big => "utf-32-be"

/-- The two bytes of a 16-bit unit. -/
def unit16 (order : ByteOrder) (u : Nat) : Bytes :=
  let low := UInt8.ofNat (u % 256)
  let high := UInt8.ofNat (u / 256)
  match order with
  | .little => [low, high]
  | .big => [high, low]

/-- The four bytes of a 32-bit unit. -/
def unit32 (order : ByteOrder) (u : Nat) : Bytes :=
  match order with
  | .little => unit16 .little (u % 65536) ++ unit16 .little (u / 65536)
  | .big => unit16 .big (u / 65536) ++ unit16 .big (u % 65536)

/-- A surrogate that opens a pair. -/
def isHighSurrogate (u : Nat) : Bool := 0xD800 ≤ u && u ≤ 0xDBFF

/-- A surrogate that closes a pair. -/
def isLowSurrogate (u : Nat) : Bool := 0xDC00 ≤ u && u ≤ 0xDFFF

/-- The 16-bit units of a code point: a pair of surrogates above the basic plane, else the code point itself. -/
def units16 (c : Nat) : List Nat :=
  if c < 0x10000 then [c] else [0xD800 + (c - 0x10000) / 1024, 0xDC00 + (c - 0x10000) % 1024]

/-- The bytes of one code point. -/
def encodeChar : Encoding → Nat → Bytes
  | latin1, c => [UInt8.ofNat c]
  | utf16 order, c => (units16 c).flatMap (unit16 order)
  | utf32 order, c => unit32 order c

/-- The bytes of a text. -/
def encode (e : Encoding) (t : Text) : Bytes := t.flatMap e.encodeChar

/-- The 16-bit units of a byte string of even length. -/
def readUnits16 (order : ByteOrder) : Bytes → Option (List Nat)
  | [] => some []
  | [_] => none
  | a :: b :: r =>
    let u := match order with
      | .little => a.toNat + 256 * b.toNat
      | .big => b.toNat + 256 * a.toNat
    (readUnits16 order r).map (u :: ·)

/-- Joins pairs of surrogates; others stay as they are. -/
def joinSurrogates : List Nat → Text
  | [] => []
  | [u] => [u]
  | u :: v :: r =>
    if isHighSurrogate u && isLowSurrogate v then
      (0x10000 + (u - 0xD800) * 1024 + (v - 0xDC00)) :: joinSurrogates r
    else u :: joinSurrogates (v :: r)

/-- The 32-bit units of a byte string, if its length is a multiple of four and none exceeds U+10FFFF. -/
def readUnits32 (order : ByteOrder) : Bytes → Option Text
  | [] => some []
  | a :: b :: c :: d :: r =>
    let u := match order with
      | .little => a.toNat + 256 * b.toNat + 65536 * (c.toNat + 256 * d.toNat)
      | .big => d.toNat + 256 * c.toNat + 65536 * (b.toNat + 256 * a.toNat)
    if u ≤ 0x10FFFF then (readUnits32 order r).map (u :: ·) else none
  | _ => none

/-- The text that a byte string stands for, if it is well formed. -/
def decode? : Encoding → Bytes → Option Text
  | latin1, b => some (b.map UInt8.toNat)
  | utf16 order, b => (readUnits16 order b).map joinSurrogates
  | utf32 order, b => readUnits32 order b

end Encoding

end Handout
