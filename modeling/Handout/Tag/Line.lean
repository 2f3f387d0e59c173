import Handout.Text.CodePoint

/-!
# Lines

A line ends with CR LF, CR or LF and keeps its terminator; only the last line may lack one.
-/

namespace Handout

/-- Puts a character before the lines of the text that follows it. -/
def consLine (c : Nat) (lines : List Text) : List Text :=
  if c = 10 then [10] :: lines
  else if c = 13 then
    match lines with
    | [10] :: rest => [13, 10] :: rest
    | _ => [13] :: lines
  else
    match lines with
    | [] => [[c]]
    | l :: rest => (c :: l) :: rest

/-- Cuts a text into its lines. -/
def splitLines : Text → List Text
  | [] => []
  | c :: r => consLine c (splitLines r)

/-- A line without its terminator. -/
def lineBody (line : Text) : Text := Text.trimEnd Text.isLineEnd line

/-- The terminator of a line, empty if it has none. -/
def lineEnd (line : Text) : Text := line.drop (lineBody line).length

end Handout
