import Handout.Text.Encoding

/-!
# Detection of UTF-16 and UTF-32

A byte order mark decides.  Without one, data that contains a zero byte is judged by where its zero bytes stand:
in each of the four wide encodings of mostly Western text, more than 94% of the bytes at certain positions modulo
four are zero and more than 94% at certain others are not, and the units are well formed.
-/

namespace Handout.Detection

open Encoding

/-- The byte order marks.  The mark of UTF-32, little end first, starts with that of UTF-16, so it stands first. -/
def byteOrderMarks : List (Bytes × Encoding) :=
  [([0xFF, 0xFE, 0, 0], utf32 .little), ([0, 0, 0xFE, 0xFF], utf32 .big),
   ([0xFF, 0xFE], utf16 .little), ([0xFE, 0xFF], utf16 .big)]

/-- The mark at the start of the data, with its encoding. -/
def mark? (data : Bytes) : Option (Bytes × Encoding) :=
  byteOrderMarks.find? fun m => m.1.isPrefixOf data

/-- How many bytes that satisfy `p` stand at positions `k` modulo four; `pos` is the position of the first byte. -/
def countAt (p : UInt8 → Bool) (k : Nat) : Nat → Bytes → Nat
  | _, [] => 0
  | pos, b :: r => (if pos % 4 = k ∧ p b then 1 else 0) + countAt p k (pos + 1) r

/-- The number of zero bytes at positions `k` modulo four. -/
def zeros (data : Bytes) (k : Nat) : Nat := countAt (· == 0) k 0 data

/-- The number of other bytes at positions `k` modulo four. -/
def nonzeros (data : Bytes) (k : Nat) : Nat := countAt (· != 0) k 0 data

/-- No unit of UTF-32 seen from this end: beyond U+10FFFF, or a surrogate. -/
def badUnit32 (q0 q1 q2 : UInt8) : Bool :=
  q0 != 0 || q1 > 0x10 || (q1 == 0 && 0xD8 ≤ q2 && q2 ≤ 0xDF)

/-- The groups of four bytes; an incomplete group at the end is left out. -/
def groups : Bytes → List (UInt8 × UInt8 × UInt8 × UInt8)
  | a :: b :: c :: d :: r => (a, b, c, d) :: groups r
  | _ => []

/-- Whether no complete group refutes UTF-32. -/
def wellFormed32 (order : ByteOrder) (data : Bytes) : Bool :=
  (groups data).all fun (a, b, c, d) =>
    match order with
    | .big => !badUnit32 a b c
    | .little => !badUnit32 d c b

/-- Whether the leading bytes of 16-bit units pair their surrogates; `pending` tells that one is open. -/
def pairsSurrogates : Bool → List UInt8 → Bool
  | _, [] => true
  | false, b :: r => if 0xD8 ≤ b && b ≤ 0xDB then pairsSurrogates true r else !(0xDC ≤ b && b ≤ 0xDF) && pairsSurrogates false r
  | true, b :: r => (0xDC ≤ b && b ≤ 0xDF) && pairsSurrogates false r

/-- Whether no complete group refutes UTF-16. -/
def wellFormed16 (order : ByteOrder) (data : Bytes) : Bool :=
  pairsSurrogates false ((groups data).flatMap fun (a, b, c, d) =>
    match order with
    | .big => [a, c]
    | .little => [b, d])

/-- More than 94% of a quarter of `n` positions. -/
def mostOfQuarter (n count : Nat) : Bool := 400 * count > 94 * n

/-- More than 94% of a half of `n` positions. -/
def mostOfHalf (n count : Nat) : Bool := 200 * count > 94 * n

/-- The verdict on data without a mark.  Fewer than twenty units are too few to judge. -/
def unmarked? (data : Bytes) : Option Encoding :=
  let n := data.length
  let zero := zeros data
  let nonzero := nonzeros data
  if [0xEF, 0xBB, 0xBF].isPrefixOf data || [0, 0, 0xFF, 0xFE].isPrefixOf data then none
  else if 80 ≤ n && mostOfQuarter n (zero 0) && mostOfQuarter n (zero 1) && mostOfQuarter n (zero 2)
      && mostOfQuarter n (nonzero 3) && wellFormed32 .big data then some (utf32 .big)
  else if 80 ≤ n && mostOfQuarter n (nonzero 0) && mostOfQuarter n (zero 1) && mostOfQuarter n (zero 2)
      && mostOfQuarter n (zero 3) && wellFormed32 .little data then some (utf32 .little)
  else if 40 ≤ n && mostOfHalf n (nonzero 1 + nonzero 3) && mostOfHalf n (zero 0 + zero 2)
      && wellFormed16 .big data then some (utf16 .big)
  else if 40 ≤ n && mostOfHalf n (nonzero 0 + nonzero 2) && mostOfHalf n (zero 1 + zero 3)
      && wellFormed16 .little data then some (utf16 .little)
  else none

/-- The wide encoding of the data, with the mark that it starts with (empty if there is none). -/
def wideEncoding? (data : Bytes) : Option (Bytes × Encoding) :=
  match mark? data with
  | some m => some m
  | none => if data.contains 0 then (unmarked? data).map fun e => ([], e) else none

end Handout.Detection
