import Handout.Path

/-!
# Shell words

A word of safe ASCII characters stands for itself in a shell.  Any other word is put into single quotes; a single
quote inside is written as a quote in double quotes between two quoted parts.
-/

namespace Handout

namespace Shell

/-- Letters, digits and the marks without a meaning in a shell. -/
def isSafe (c : Char) : Bool := c.isAlphanum || "_@%+=:,./-".toList.contains c

/-- A word as a shell reads it back. -/
def quote (word : String) : String :=
  if word.isEmpty then "''"
  else if word.toList.all isSafe then word
  else
    let escaped := word.toList.flatMap fun c => if c = '\'' then "'\"'\"'".toList else [c]
    "'" ++ String.ofList escaped ++ "'"

end Shell

/-- A path as it is shown in messages. -/
def Path.display (p : Path) : String := Shell.quote p.toString

end Handout
