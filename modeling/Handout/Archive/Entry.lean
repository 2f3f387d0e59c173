import Handout.Files.Basic

/-!
# Entries of archives

What is written to an archive is a list of entries, each with its name in the archive and what it holds.
-/

namespace Handout.Archive

/-- An entry of an archive to be written. -/
structure Entry where
  name : String
  node : Node
deriving DecidableEq, Repr

end Handout.Archive
