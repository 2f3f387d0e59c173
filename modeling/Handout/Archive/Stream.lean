import Handout.Archive.Checksum
import Handout.Archive.Deflate
import Handout.Archive.Listing

/-!
# Streams

An archive may be compressed as a whole.  `gunzip?` restores such data as far as that is possible; reading past its
end meets the fault, if there is one.
-/

namespace Handout.Archive

/-- Data that can be read at any position, and the fault that is met by reading past its end. -/
structure Stream where
  data : Bytes
  fault : Option StreamFault := none
deriving Repr

/-- The `n` bytes at a position; fewer at the end of a sound stream. -/
def Stream.read (s : Stream) (position n : Nat) : Except StreamFault Bytes :=
  let found := Bytes.slice s.data position n
  match s.fault with
  | none => .ok found
  | some fault => if found.length = n then .ok found else .error fault

namespace Gzip

/-- The first two bytes of compressed data. -/
def magic : Bytes := [0x1F, 0x8B]

/-- A number in hexadecimal digits. -/
def hex (n : Nat) : String := "0x" ++ String.ofList (Nat.toDigits 16 n)

/-- The size of the pieces in which data is restored; what is restored together with damage is lost. -/
def piece : Nat := 8192

/-- Data behind a text that ends in a zero byte. -/
def skipText (b : Bytes) : Bytes := (b.dropWhile (· != 0)).drop 1

/-- Data behind the first `n` bytes. -/
def skip (n : Nat) (b : Bytes) : Except StreamFault Bytes :=
  if b.length < n then .error .cutShort else .ok (b.drop n)

/-- Data behind the header of compressed data. -/
def skipHeader (b : Bytes) : Except StreamFault Bytes := do
  if b.take 2 != magic then
    throw (.system (.stream s!"Not a gzipped file ({(Text.quotedBytes (b.take 2)).toString})"))
  let rest ← skip 10 b
  if b.getD 2 0 != 8 then throw (.system (.stream "Unknown compression method"))
  let flag (n : Nat) : Bool := (b.getD 3 0).toNat / n % 2 == 1
  let rest ← if flag 4 then do skip (Bytes.field rest 0 2) (← skip 2 rest) else pure rest
  let rest := if flag 8 then skipText rest else rest
  let rest := if flag 16 then skipText rest else rest
  if flag 2 then skip 2 rest else return rest

/-- Checks the checksum and the length behind compressed data. -/
def checkEnd (data rest : Bytes) : Except StreamFault Unit := do
  discard (skip 8 rest)
  let expected := Bytes.field rest 0 4
  let found := checksum data
  if expected ≠ found then throw (.system (.stream s!"CRC check failed {hex expected} != {hex found}"))
  if Bytes.field rest 4 4 ≠ data.length % 4294967296 then
    throw (.system (.stream "Incorrect length of data produced"))

/-- Restores data that was compressed in several parts.  Zero bytes behind a part are ignored. -/
def restore : Nat → Bytes → Stream
  | 0, _ => ⟨[], some .malformed⟩
  | _, [] => ⟨[], none⟩
  | fuel + 1, b =>
    match skipHeader b with
    | .error fault => ⟨[], some fault⟩
    | .ok body =>
      let part := inflate body
      match part.stop with
      | some .exhausted => ⟨part.output, some .cutShort⟩
      | some .damaged => ⟨part.output.take ((part.output.length - 1) / piece * piece), some .malformed⟩
      | none =>
        let rest := body.drop part.used
        match checkEnd part.output rest with
        | .error fault => ⟨part.output, some fault⟩
        | .ok () =>
          let next := restore fuel ((rest.drop 8).dropWhile (· == 0))
          ⟨part.output ++ next.data, next.fault⟩

end Gzip

/-- The stream of compressed data; nothing if the data does not begin as such data does. -/
def gunzip? (b : Bytes) : Option Stream :=
  if b.isEmpty then none
  else
    match Gzip.skipHeader b with
    | .error (.system _) => none
    | _ => some (Gzip.restore b.length b)

end Handout.Archive
