import Handout.Bytes
import Handout.Text.CodePoint
import Handout.Text.Printable

/-!
# Quoted texts

Messages show odd values in quotes.  The quotes are single unless the text holds a single quote and no double one.
Characters that are not printable are escaped by their number.
-/

namespace Handout.Text

/-- The lowest `n` hexadecimal digits of a number. -/
def hex (n v : Nat) : Text :=
  let digit (d : Nat) : Nat := if d < 10 then 48 + d else 87 + d
  (List.range n).reverse.map fun i => digit ((v >>> (4 * i)) % 16)

/-- The quotation mark around a text. -/
def quoteMark (t : Text) : Nat := if t.contains 39 && !t.contains 34 then 34 else 39

/-- A character inside quotes, where `shown` tells the characters that stand for themselves. -/
def quoteChar (shown : Nat → Bool) (mark c : Nat) : Text :=
  if c = mark ∨ c = 92 then [92, c]
  else if c = 10 then ofString "\\n"
  else if c = 13 then ofString "\\r"
  else if c = 9 then ofString "\\t"
  else if shown c then [c]
  else if c < 0x100 then ofString "\\x" ++ hex 2 c
  else if c < 0x10000 then ofString "\\u" ++ hex 4 c
  else ofString "\\U" ++ hex 8 c

/-- A text in quotes. -/
def quoted (t : Text) : Text :=
  let mark := quoteMark t
  mark :: t.flatMap (quoteChar isPrintable mark) ++ [mark]

/-- A byte string in quotes; only printable ASCII characters stand for themselves. -/
def quotedBytes (b : Bytes) : Text :=
  let t := b.map UInt8.toNat
  let mark := quoteMark t
  98 :: mark :: t.flatMap (quoteChar (fun c => 0x20 ≤ c && c < 0x7F) mark) ++ [mark]

end Handout.Text

namespace Handout

/-- A string in quotes. -/
def quotedString (s : String) : String := (Text.quoted (Text.ofString s)).toString

end Handout
