/-!
# Numerals

Numbers in archive headers are written in octal or decimal digits.  Blanks around a numeral are ignored, a sign may
precede it, and single underscores may stand between digits.
-/

namespace Handout.Numeral

/-- The blanks that may surround a numeral. -/
def isBlank (c : Char) : Bool :=
  (9 ≤ c.toNat && c.toNat ≤ 13) || (28 ≤ c.toNat && c.toNat ≤ 32)

/-- A text without blanks at its ends. -/
def trim (s : List Char) : List Char := ((s.dropWhile isBlank).reverse.dropWhile isBlank).reverse

/-- The value of a digit. -/
def digit? (base : Nat) (c : Char) : Option Nat :=
  if c.isDigit && c.toNat - 48 < base then some (c.toNat - 48) else none

/-- Reads the digits that follow a first one. -/
def digits? (base : Nat) (value : Nat) : List Char → Option Nat
  | [] => some value
  | '_' :: c :: r => do digits? base (base * value + (← digit? base c)) r
  | c :: r => do digits? base (base * value + (← digit? base c)) r

/-- Reads a numeral without sign. -/
def unsigned? (base : Nat) : List Char → Option Nat
  | [] => none
  | c :: r => do digits? base (← digit? base c) r

/-- A numeral without the mark of its base. -/
def dropMark (base : Nat) (s : List Char) : List Char :=
  match s with
  | '0' :: m :: r =>
    if base = 8 ∧ (m = 'o' ∨ m = 'O') then
      match r with
      | '_' :: r => r
      | r => r
    else s
  | s => s

/-- Reads a numeral. -/
def read? (base : Nat) (s : List Char) : Option Int :=
  match trim s with
  | '-' :: r => (unsigned? base (dropMark base r)).map fun n => -(n : Int)
  | '+' :: r => (unsigned? base (dropMark base r)).map Int.ofNat
  | r => (unsigned? base (dropMark base r)).map Int.ofNat

end Handout.Numeral
