/-!
# Texts as code points

Decoded file content may hold surrogates that stand alone, which no `Char` can be.  Such texts are lists of code
points.  The module also fixes the three classes of characters that the formats distinguish: ASCII blanks, the
blanks of Unicode, and the characters of a line end.
-/

namespace Handout

/-- A sequence of code points, surrogates allowed. -/
abbrev Text := List Nat

namespace Text

/-- The code points of a string. -/
def ofString (s : String) : Text := s.toList.map Char.toNat

/-- The string of the given code points; a surrogate becomes U+FFFD. -/
def toString (t : Text) : String :=
  String.ofList (t.map fun c => if 0xD800 ≤ c ∧ c ≤ 0xDFFF then '\uFFFD' else Char.ofNat c)

/-- Space, tab, line feed, vertical tab, form feed and carriage return. -/
def isBlank (c : Nat) : Bool := c == 32 || (9 ≤ c && c ≤ 13)

/-- ASCII letters, digits and the underscore. -/
def isWordChar (c : Nat) : Bool :=
  (48 ≤ c && c ≤ 57) || (65 ≤ c && c ≤ 90) || c == 95 || (97 ≤ c && c ≤ 122)

/-- The blanks of Unicode, among them the four information separators. -/
def isWideBlank (c : Nat) : Bool :=
  isBlank c || (0x1C ≤ c && c ≤ 0x1F) || c == 0x85 || c == 0xA0 || c == 0x1680 || (0x2000 ≤ c && c ≤ 0x200A)
    || c == 0x2028 || c == 0x2029 || c == 0x202F || c == 0x205F || c == 0x3000

/-- Carriage return and line feed. -/
def isLineEnd (c : Nat) : Bool := c == 13 || c == 10

/-- A text without the members of a class at its end. -/
def trimEnd (p : Nat → Bool) (t : Text) : Text := (t.reverse.dropWhile p).reverse

/-- A text without the members of a class at both ends. -/
def trim (p : Nat → Bool) (t : Text) : Text := trimEnd p (t.dropWhile p)

end Text

end Handout
