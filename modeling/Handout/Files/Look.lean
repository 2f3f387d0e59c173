import Handout.Session

/-!
# Looking at files

Questions about paths: what they lead to, what a directory holds, what a file contains, and which real path they
stand for.  A path that leads nowhere is neither a file nor a directory; only a name that is too long makes such a
question fail.  In a locked directory the question for a file fails, and so does listing it.
-/

namespace Handout

/-- A path together with the way it is written in messages. -/
structure WrittenPath where
  path : Path
  text : String
deriving DecidableEq, Repr

/-- A path in its own writing. -/
def Path.written (p : Path) : WrittenPath := ⟨p, p.toString⟩

/-- An entry of a directory. -/
def WrittenPath.entry (w : WrittenPath) (name : String) : WrittenPath :=
  ⟨w.path.child name, if w.text.toList.getLast? = some '/' then w.text ++ name else w.text ++ "/" ++ name⟩

/-- Whether a zero character occurs in a path. -/
def Path.hasZero (p : Path) : Bool := p.parts.any fun c => c.toList.contains (Char.ofNat 0)

/-- The failure of a request to the operating system. -/
def refuse (code : SystemCode) (w : WrittenPath) : Failure := .system (.call code w.text)

/-- Sorts names. -/
def sortNames (names : List String) : List String := sortBy (fun a b => decide (a ≤ b)) names

namespace Session

/-- Where a path leads. -/
def find (s : Session) (follow : Bool) (p : Path) : Except SystemCode Place :=
  s.files.walk follow maxLinks (if p.isAbsolute then [] else s.workingDir) p.parts

/-- What a path leads to; nothing if it cannot be followed. -/
def node? (s : Session) (follow : Bool) (p : Path) : Option Node :=
  if p.hasZero then none
  else
    match s.find follow p with
    | .ok place => place.node
    | .error _ => none

/-- What a path leads to; fails on a name that is too long. -/
def look (s : Session) (follow : Bool) (p : Path) : Except Failure (Option Node) :=
  if p.hasZero then .ok none
  else
    match s.find follow p with
    | .ok place => .ok place.node
    | .error .nameTooLong => .error (refuse .nameTooLong p.written)
    | .error _ => .ok none

/-- Whether a node is a directory. -/
def isDirectoryNode : Option Node → Bool
  | some .directory => true
  | _ => false

/-- Whether a node is a regular file. -/
def isFileNode : Option Node → Bool
  | some (.file _ _) => true
  | _ => false

/-- Whether a node is a link. -/
def isLinkNode : Option Node → Bool
  | some (.link _) => true
  | _ => false

/-- Whether a path leads to anything. -/
def exists? (s : Session) (p : Path) : Except Failure Bool := (s.look true p).map Option.isSome

/-- Whether a path leads to a directory. -/
def isDirectory? (s : Session) (p : Path) : Except Failure Bool := (s.look true p).map isDirectoryNode

/-- Whether a path is a link. -/
def isLink? (s : Session) (p : Path) : Except Failure Bool := (s.look false p).map isLinkNode

/-- Whether a path leads to a regular file. -/
def isFile? (s : Session) (p : Path) : Except Failure Bool :=
  if s.locked.contains p.parent then .error (refuse .denied p.written)
  else (s.look true p).map isFileNode

/-- The names in a directory. -/
def names? (s : Session) (w : WrittenPath) : Except Failure (List String) :=
  if s.locked.contains w.path then .error (refuse .denied w)
  else if w.path.hasZero then .error .zeroInPath
  else
    match s.find true w.path with
    | .error code => .error (refuse code w)
    | .ok ⟨_, none⟩ => .error (refuse .noEntry w)
    | .ok ⟨loc, some .directory⟩ => .ok (s.files.names loc)
    | .ok _ => .error (refuse .notDirectory w)

/-- The content of a file. -/
def content? (s : Session) (w : WrittenPath) : Except Failure Bytes :=
  if w.path.hasZero then .error .zeroInPath
  else
    match s.find true w.path with
    | .error code => .error (refuse code w)
    | .ok ⟨_, some (.file data _)⟩ => .ok data
    | .ok ⟨_, some .directory⟩ => .error (refuse .isDirectory w)
    | .ok _ => .error (refuse .noEntry w)

/-- The path from the root that a path stands for, without links. -/
def resolve? (s : Session) (p : Path) : Except Failure Path :=
  if p.hasZero then .error .zeroInPath
  else
    let start := if p.isAbsolute then [] else s.workingDir
    let (loc, ok) := s.files.canonical (s.files.links + 1) [] start p.parts
    let found : Path := ⟨.root, loc⟩
    if !ok && (match s.find true found with
      | .error .linkLoop => true
      | _ => false) then .error .linkLoop
    else .ok found

/-- Whether two paths lead to one and the same entry. -/
def sameEntry (s : Session) (p q : Path) : Bool :=
  match s.find true p, s.find true q with
  | .ok a, .ok b => a.node.isSome && a.location == b.location
  | _, _ => false

end Session

namespace Action

/-- Whether a path leads to anything. -/
def pathExists (p : Path) : Action Bool := query fun s => s.exists? p

/-- Whether a path leads to a directory. -/
def isDirectory (p : Path) : Action Bool := query fun s => s.isDirectory? p

/-- Whether a path is a link. -/
def isLink (p : Path) : Action Bool := query fun s => s.isLink? p

/-- Whether a path leads to a regular file. -/
def isFile (p : Path) : Action Bool := query fun s => s.isFile? p

/-- The names in a directory, in the order in which they are stored. -/
def names (w : WrittenPath) : Action (List String) := query fun s => s.names? w

/-- The content of a file. -/
def readFile (p : Path) : Action Bytes := query fun s => s.content? p.written

/-- The path from the root that a path stands for, without links. -/
def resolve (p : Path) : Action Path := query fun s => s.resolve? p

end Action

end Handout
