import Handout.Failure

/-!
# Listings of archives

Whatever its format, an archive is read as a list of members, which may end in a fault.  The content of a member is
the data that can be read; where reading stops before the end of the member, the fault is part of the content.
-/

namespace Handout.Archive

/-- Why reading an archive stops. -/
inductive StreamFault where
  /-- Compressed data ends too early. -/
  | cutShort
  /-- The structure of the archive is broken. -/
  | malformed
  /-- A name that is marked as UTF-8 is not valid. -/
  | undecodable
  | system (error : SystemError)
deriving DecidableEq, Repr

/-- The failure of an operation that meets a fault in the archive at a path. -/
def StreamFault.failure (archive : Path) : StreamFault → Failure
  | cutShort | malformed => .archive archive .malformed
  | undecodable => .undecodable
  | system e => .system e

/-- The data of a member, and what stops reading it before its end. -/
structure Content where
  data : Bytes
  fault : Option StreamFault := none
deriving DecidableEq, Repr

/-- The number of bytes that are read at once; what is read together with a fault is lost. -/
def chunk : Nat := 65536

/-- Data that breaks off: only full chunks remain. -/
def Content.brokenOff (data : Bytes) (fault : StreamFault) : Content :=
  ⟨data.take (data.length / chunk * chunk), some fault⟩

/-- What a member of an archive is.  The data of a file may be impossible to open. -/
inductive MemberKind where
  | directory
  | file (content : Except StreamFault Content)
  | link (target : String)
  | special
deriving Repr

/-- A member of an archive; `method` is the compression method, if the format has one for each member. -/
structure Member where
  name : String
  kind : MemberKind
  encrypted : Bool := false
  executable : Bool := false
  method : Option Nat := none
deriving Repr

/-- The members of an archive, and what stops reading after the last one. -/
structure Listing where
  members : List Member
  fault : Option StreamFault := none
deriving Repr

end Handout.Archive
