import Handout.Failure
import Handout.Files.Basic

/-!
# Following paths

`Files.walk` follows the components of a path as the operating system does: every component but the last has to be
a directory or a link to one, at most `maxLinks` links are followed, and a name has at most `maxName` bytes.
`Files.canonical` computes the location that a path stands for whether it exists or not; there a `..` behind
something that is no directory removes the component before it.
-/

namespace Handout

/-- The greatest number of links that are followed on the way to one file. -/
def maxLinks : Nat := 40

/-- The greatest number of bytes in a name. -/
def maxName : Nat := 255

/-- Where a path leads: a location in an existing directory, and what is stored there. -/
structure Place where
  location : Location
  node : Option Node
deriving DecidableEq, Repr

namespace Files

/-- Whether a piece of a path leaves the directory as it is. -/
def isStay (c : String) : Bool := c == "" || c == "."

/-- Follows the pieces of a path from a directory; `follow` tells whether a link in the last place is followed, and
`again` how to go on from a directory with the pieces that a link stands for. -/
def walkWith (f : Files) (follow : Bool) (again : Location → List String → Except SystemCode Place) (dir : Location) :
    List String → Except SystemCode Place
  | [] => .ok ⟨dir, some .directory⟩
  | c :: rest =>
    if isStay c then walkWith f follow again dir rest
    else if c = ".." then walkWith f follow again dir.dropLast rest
    else if maxName < c.utf8ByteSize then .error .nameTooLong
    else
      let next := dir ++ [c]
      match f.get? next with
      | none => if rest.isEmpty then .ok ⟨next, none⟩ else .error .noEntry
      | some .directory => walkWith f follow again next rest
      | some (.file data executable) =>
        if rest.isEmpty then .ok ⟨next, some (.file data executable)⟩ else .error .notDirectory
      | some (.link target) =>
        if rest.isEmpty && !follow then .ok ⟨next, some (.link target)⟩
        else again (if (Path.anchorOf target) = .relative then dir else []) (Path.pieces target ++ rest)

/-- Follows the pieces of a path from a directory, with at most so many links on the way. -/
def walk (f : Files) (follow : Bool) : Nat → Location → List String → Except SystemCode Place
  | 0 => walkWith f follow fun _ _ => .error .linkLoop
  | links + 1 => walkWith f follow (walk f follow links)

/-- Goes on from a location by name alone. -/
def descend (dir : Location) : List String → Location
  | [] => dir
  | c :: rest =>
    if isStay c then descend dir rest
    else if c = ".." then descend dir.dropLast rest
    else descend (dir ++ [c]) rest

/-- The location that the pieces of a path stand for, and whether the links on the way could be followed.  A link
that is met while it is being followed stands for itself; `deeper` tells what the pieces of another one stand for. -/
def canonicalWith (f : Files) (pending : List Location)
    (deeper : Option (List Location → Location → List String → Location × Bool)) (dir : Location) :
    List String → Location × Bool
  | [] => (dir, true)
  | c :: rest =>
    if isStay c then canonicalWith f pending deeper dir rest
    else if c = ".." then canonicalWith f pending deeper dir.dropLast rest
    else
      let next := dir ++ [c]
      match f.get? next with
      | some (.link target) =>
        match deeper with
        | none => (descend next rest, false)
        | some deeper =>
          if pending.contains next then (descend next rest, false)
          else
            let start := if (Path.anchorOf target) = .relative then dir else []
            let (found, ok) := deeper (next :: pending) start (Path.pieces target)
            if ok then canonicalWith f pending (some deeper) found rest else (descend found rest, false)
      | _ => canonicalWith f pending deeper next rest

/-- The location that the pieces of a path stand for, with links in links up to a certain depth. -/
def canonical (f : Files) : Nat → List Location → Location → List String → Location × Bool
  | 0, pending => canonicalWith f pending none
  | depth + 1, pending => canonicalWith f pending (some (canonical f depth))

end Files

end Handout
