import Handout.Bytes

/-!
# Code page 437

Names in archives that are not marked as UTF-8 are written in the code page of the first personal computers.  Its
first half is ASCII; the second half is a table.
-/

namespace Handout.CodePage

/-- The characters from 128 to 255. -/
def upperHalf : String :=
  "ÇüéâäàåçêëèïîìÄÅÉæÆôöòûùÿÖÜ¢£¥₧ƒ" ++
  "áíóúñÑªº¿⌐¬½¼¡«»░▒▓│┤╡╢╖╕╣║╗╝╜╛┐" ++
  "└┴┬├─┼╞╟╚╔╩╦╠═╬╧╨╤╥╙╘╒╓╫╪┘┌█▄▌▐▀" ++
  "αßΓπΣσµτΦΘΩδ∞φε∩≡±≥≤⌠⌡÷≈°∙·√ⁿ²■\u00a0"

/-- The character of a byte. -/
def charOf (upper : Array Char) (b : UInt8) : Char :=
  if b.toNat < 128 then Char.ofNat b.toNat else upper.getD (b.toNat - 128) ' '

/-- Reads a byte string. -/
def decode (b : Bytes) : String :=
  let upper := upperHalf.toList.toArray
  String.ofList (b.map (charOf upper))

end Handout.CodePage
