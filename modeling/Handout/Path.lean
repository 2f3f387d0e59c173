import Handout.Sorting

/-!
# Paths

A path is an anchor and a list of components.  Reading drops empty and `.` components and keeps `..`.  The path
without anchor and components is written `.`.  Paths are ordered by their lists of components, so a directory comes
before what it holds, and what it holds comes before `a b` and `a-b`.
-/

namespace Handout

/-- What a path starts from: nothing, the root, or the root written as exactly two slashes. -/
inductive Anchor where
  | relative
  | root
  | doubleRoot
deriving DecidableEq, Repr

/-- The slashes of an anchor. -/
def Anchor.text : Anchor → String
  | relative => ""
  | root => "/"
  | doubleRoot => "//"

/-- A path as it is written, apart from redundant slashes and dots. -/
structure Path where
  anchor : Anchor
  parts : List String
deriving DecidableEq, Repr

/-- The pieces between the occurrences of a character. -/
def splitAt (sep : Char) : List Char → List (List Char)
  | [] => [[]]
  | c :: r =>
    if c = sep then [] :: splitAt sep r
    else
      match splitAt sep r with
      | [] => [[c]]
      | p :: ps => (c :: p) :: ps

namespace Path

/-- The pieces of a written path between its slashes. -/
def pieces (s : String) : List String := (splitAt '/' s.toList).map String.ofList

/-- A piece that names something. -/
def isComponent (c : String) : Bool := c != "" && c != "."

/-- The anchor of a written path. -/
def anchorOf (s : String) : Anchor :=
  match (s.toList.takeWhile (· == '/')).length with
  | 0 => .relative
  | 2 => .doubleRoot
  | _ => .root

/-- Reads a path. -/
def ofString (s : String) : Path := ⟨anchorOf s, (pieces s).filter isComponent⟩

/-- The path that stands for the current directory. -/
def here : Path := ⟨.relative, []⟩

/-- Writes a path. -/
def toString (p : Path) : String :=
  if p = here then "." else p.anchor.text ++ "/".intercalate p.parts

/-- Whether a path starts from the root. -/
def isAbsolute (p : Path) : Bool := p.anchor != .relative

/-- The last component, empty if there is none. -/
def name (p : Path) : String := p.parts.getLast?.getD ""

/-- The path without its last component. -/
def parent (p : Path) : Path := ⟨p.anchor, p.parts.dropLast⟩

/-- The parents of a path, the nearest first. -/
def parents (p : Path) : List Path :=
  (List.range p.parts.length).reverse.map fun n => ⟨p.anchor, p.parts.take n⟩

/-- A path taken from another one; an absolute path stands for itself. -/
def join (p q : Path) : Path := if q.isAbsolute then q else ⟨p.anchor, p.parts ++ q.parts⟩

/-- The path of an entry of a directory. -/
def child (p : Path) (name : String) : Path := ⟨p.anchor, p.parts ++ [name]⟩

/-- All components, the anchor being one of them. -/
def components (p : Path) : List String := if p.isAbsolute then p.anchor.text :: p.parts else p.parts

/-- Whether a path comes before another one or equals it. -/
def le (p q : Path) : Bool := !q.components.lex p.components fun a b => decide (a < b)

/-- Sorts paths. -/
def sort (ps : List Path) : List Path := sortBy le ps

/-- The path from a base to a path at or under it. -/
def relativeTo? (p base : Path) : Option Path :=
  if p.anchor = base.anchor ∧ base.parts.isPrefixOf p.parts then
    some ⟨.relative, p.parts.drop base.parts.length⟩
  else none

/-- Whether a path equals another one or lies under it. -/
def isUnder (p ancestor : Path) : Bool := p == ancestor || p.parents.contains ancestor

/-- Whether the first components of a path are those of another one. -/
def startsWith (p q : Path) : Bool := p.components.take q.components.length == q.components

/-- The last dot of a name and what follows it; empty if the dot is the first or the last character. -/
def suffixOf (name : String) : String :=
  let after := name.toList.reverse.takeWhile (· != '.')
  let before := name.toList.reverse.dropWhile (· != '.')
  if after.isEmpty || before.length ≤ 1 then "" else String.ofList ('.' :: after.reverse)

/-- The suffix of the last component, dot included. -/
def suffix (p : Path) : String := suffixOf p.name

/-- The suffix without its dot. -/
def extension (p : Path) : String := String.ofList (p.suffix.toList.drop 1)

/-- Adds a component to components in reverse order; `..` takes the last one away where there is one. -/
def pushPart (absolute : Bool) (parts : List String) (c : String) : List String :=
  if c = ".." then
    match parts with
    | [] => if absolute then [] else [c]
    | last :: rest => if last = ".." then c :: parts else rest
  else c :: parts

/-- A path without `..` components, as far as they can be removed by name alone. -/
def normal (p : Path) : Path := ⟨p.anchor, (p.parts.foldl (pushPart p.isAbsolute) []).reverse⟩

/-- A path with a text put behind its last component. -/
def addSuffix (p : Path) (suffix : String) : Path := p.parent.join (ofString (p.name ++ suffix))

end Path

end Handout
