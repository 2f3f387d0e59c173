import Handout.Bytes
import Handout.Path

/-!
# Stored files

The stored files are a table from locations to nodes.  A location is the list of names that leads from the root to
an entry through real directories; the root itself is always a directory.  What the table holds at a location is
`get?`, and the names in a directory, each once, are `names`.
-/

namespace Handout

/-- A real place: the names from the root down. -/
abbrev Location := List String

/-- What can be stored at a location. -/
inductive Node where
  | directory
  | file (data : Bytes) (executable : Bool)
  | link (target : String)
deriving DecidableEq, Repr

/-- All stored files.  The order of the entries is the order in which directories are listed. -/
structure Files where
  entries : List (Location × Node) := []
deriving DecidableEq, Repr

namespace Files

/-- What is stored at a location. -/
def get? (f : Files) (loc : Location) : Option Node :=
  if loc = [] then some .directory else f.entries.lookup loc

/-- Stores a node in a list of entries, in the place of the old one if there is one. -/
def putEntry (loc : Location) (node : Node) : List (Location × Node) → List (Location × Node)
  | [] => [(loc, node)]
  | e :: r => if e.1 = loc then (loc, node) :: r else e :: putEntry loc node r

/-- Stores a node at a location. -/
def put (f : Files) (loc : Location) (node : Node) : Files := ⟨putEntry loc node f.entries⟩

/-- Removes what is stored at a location. -/
def erase (f : Files) (loc : Location) : Files := ⟨f.entries.filter fun e => e.1 != loc⟩

/-- Removes what is stored at a location and below it. -/
def eraseTree (f : Files) (loc : Location) : Files := ⟨f.entries.filter fun e => !loc.isPrefixOf e.1⟩

/-- The name of an entry in a directory. -/
def nameIn? (dir : Location) (loc : Location) : Option String :=
  if loc.dropLast = dir then loc.getLast? else none

/-- The names in a directory, each once. -/
def names (f : Files) (dir : Location) : List String := (f.entries.filterMap fun e => nameIn? dir e.1).eraseDups

/-- The number of names that lead to the deepest entry. -/
def height (f : Files) : Nat := f.entries.foldl (fun h e => max h e.1.length) 0

/-- The number of links. -/
def links (f : Files) : Nat :=
  (f.entries.filter fun e => match e.2 with
    | .link _ => true
    | _ => false).length

end Files

end Handout
