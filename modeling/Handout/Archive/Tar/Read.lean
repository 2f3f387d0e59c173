import Handout.Archive.Tar.Header

/-!
# Reading tar archives

A member is read from its header and the headers that precede it.  A broken header at the beginning means that the
data is no tar archive; a later one ends the archive, unless it has to be there.
-/

namespace Handout.Archive.Tar

/-- What records say about members. -/
structure Overrides where
  name : Option String := none
  size : Option Int := none
  link : Option String := none
deriving DecidableEq, Repr

/-- Applies records to a header. -/
def Overrides.apply (o : Overrides) (h : Header) : Header :=
  { h with name := o.name.getD h.name, size := o.size.getD h.size, link := o.link.getD h.link }

/-- Adds a record. -/
def Overrides.add (o : Overrides) (key value : Bytes) : Overrides :=
  if key = Bytes.ofString "path" then { o with name := some (trimSlashes (RawName.ofBytes value)) }
  else if key = Bytes.ofString "linkpath" then { o with link := some (RawName.ofBytes value) }
  else if key = Bytes.ofString "size" then
    { o with size := some ((Numeral.read? 10 (RawName.ofBytes value).toList).getD 0) }
  else o

/-- Whether a byte is a digit. -/
def isDigit (b : UInt8) : Bool := 48 ≤ b.toNat && b.toNat ≤ 57

/-- The length of the record at the beginning of a byte string, and that of the number that gives it. -/
def recordLength? (b : Bytes) : Option (Nat × Nat) :=
  let digits := b.takeWhile isDigit
  if digits.isEmpty || 20 < digits.length || b.getD digits.length 0 != 32 then none
  else some (digits.foldl (fun n d => 10 * n + (d.toNat - 48)) 0, digits.length)

/-- Reads records. -/
def readRecords : Nat → Overrides → Bytes → Except HeaderFault Overrides
  | 0, o, _ => .ok o
  | _, o, [] => .ok o
  | fuel + 1, o, b =>
    if b.headD 0 = 0 then .ok o
    else
      match recordLength? b with
      | none => .error .invalid
      | some (length, digits) =>
        if length < 5 ∨ b.length < length then .error .invalid
        else
          let pair := (b.take (length - 1)).drop (digits + 1)
          let key := pair.takeWhile (· != 61)
          if key.isEmpty || key.length == pair.length || b.getD (length - 1) 0 != 10 then .error .invalid
          else readRecords fuel (o.add key (pair.drop (key.length + 1))) (b.drop length)

/-- A member as it is found: its header, and the positions of its data and of the next member. -/
structure Found where
  header : Header
  dataStart : Nat
  next : Int

/-- The block at a position. -/
def blockAt (s : Stream) (position n : Nat) : Except HeaderFault Bytes := (s.read position n).mapError .stream

/-- A fault in a header that has to follow another one. -/
def HeaderFault.following : HeaderFault → HeaderFault
  | .stream fault => .stream fault
  | _ => .missing

/-- The position behind the data of a member. -/
def Found.behind (f : Found) : Int :=
  f.dataStart + if f.header.type.hasData then blocksFor f.header.size else 0

/-- Reads the member at a position, given the records that concern all members; gives these as they are then. -/
def find (s : Stream) : Nat → Overrides → Nat → Except HeaderFault (Found × Overrides)
  | 0, _, _ => .error .invalid
  | fuel + 1, common, position => do
    let h ← Header.ofBlock (← blockAt s position blockSize)
    let start := position + blockSize
    let length := (blocksFor h.size).toNat
    let trimmed (h : Header) : Header :=
      if h.type = .directory then { h with name := trimSlashes h.name } else h
    match h.type with
    | .longName | .longLink => do
      let data ← blockAt s start length
      let (f, common) ← (find s fuel common (start + length)).mapError HeaderFault.following
      let text := nameField data
      let named : Header := if h.type = .longName then { f.header with name := text } else { f.header with link := text }
      let named : Header := if named.type = .directory then { named with name := dropSlash named.name } else named
      return ({ f with header := named }, common)
    | .records => do
      let own ← readRecords length common (← blockAt s start length)
      let (f, common) ← (find s fuel common (start + length)).mapError HeaderFault.following
      let f := { f with header := own.apply f.header }
      return (if own.size.isSome then { f with next := f.behind } else f, common)
    | .globalRecords => do
      let common ← readRecords length common (← blockAt s start length)
      (find s fuel common (start + length)).mapError HeaderFault.following
    | _ =>
      let f : Found := ⟨h, start, 0⟩
      return ({ f with header := trimmed (common.apply h), next := f.behind }, common)

/-- The content of a member. -/
def contentOf (s : Stream) (f : Found) : Content :=
  let size := f.header.size.toNat
  match s.read f.dataStart size with
  | .ok data => if data.length = size then ⟨data, none⟩ else .brokenOff data .malformed
  | .error fault => .brokenOff (s.data.drop f.dataStart) fault

/-- A member of the archive. -/
def memberOf (s : Stream) (f : Found) : Member where
  name := f.header.name
  kind := match f.header.type with
    | .regular => .file (.ok (contentOf s f))
    | .directory => .directory
    | .hardLink | .symbolicLink => .link f.header.link
    | _ => .special
  executable := f.header.executable

/-- A bound on the number of headers. -/
def maxHeaders (s : Stream) : Nat := s.data.length / blockSize + 2

/-- The members behind a member. -/
def readFrom (s : Stream) : Nat → Overrides → Int → Listing
  | 0, _, _ => ⟨[], none⟩
  | fuel + 1, common, position =>
    if position ≤ 0 then ⟨[], none⟩
    else
      let start := position.toNat
      match s.read (start - 1) 1 with
      | .error fault => ⟨[], some fault⟩
      | .ok [] => ⟨[], some .malformed⟩
      | .ok _ =>
        match find s (maxHeaders s) common start with
        | .error (.stream fault) => ⟨[], some fault⟩
        | .error .missing => ⟨[], some .malformed⟩
        | .error _ => ⟨[], none⟩
        | .ok (f, common) =>
          let rest := readFrom s fuel common f.next
          { rest with members := memberOf s f :: rest.members }

/-- Reads a tar archive; fails with the fault at its beginning. -/
def read (s : Stream) : Except HeaderFault Listing :=
  match find s (maxHeaders s) {} 0 with
  | .error .zeros => .ok ⟨[], none⟩
  | .error fault => .error fault
  | .ok (f, common) =>
    let rest := readFrom s (maxHeaders s) common f.next
    .ok { rest with members := memberOf s f :: rest.members }

end Handout.Archive.Tar
