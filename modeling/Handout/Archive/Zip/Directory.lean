import Handout.Archive.Listing
import Handout.Text.CodePage

/-!
# The directory of a zip archive

A zip archive ends in a record that says where its central directory is; a comment and other data may follow the
record, and the archive may itself follow other data.  The central directory lists the entries.
-/

namespace Handout.Archive.Zip

/-- The record at the end of an archive: its position, and the size and the written position of the directory.  A
wide record is preceded by two more records with these numbers. -/
structure EndRecord where
  position : Nat
  directorySize : Nat
  directoryStart : Nat
  isWide : Bool
deriving DecidableEq, Repr

/-- Why no record is found at the end of an archive. -/
inductive EndFault where
  /-- The data is no zip archive. -/
  | absent
  | multipleDisks
deriving DecidableEq, Repr

/-- The signature that begins the record at the end. -/
def endSignature : Bytes := [0x50, 0x4B, 5, 6]

/-- The size of the record at the end. -/
def endSize : Nat := 22

/-- The size of the wide record at the end. -/
def wideEndSize : Nat := 56

/-- The size of the record that leads to the wide record at the end. -/
def locatorSize : Nat := 20

/-- The greatest size of a comment. -/
def maxComment : Nat := 65536

/-- The last position of a word in a byte string, if there is one. -/
def lastIndex (word : Bytes) (found : Option Nat) (position : Nat) : Bytes → Option Nat
  | [] => found
  | b :: r => lastIndex word (if word.isPrefixOf (b :: r) then some position else found) (position + 1) r

/-- The position of the record at the end. -/
def endPosition? (data : Bytes) : Option Nat :=
  let last := data.length - endSize
  if data.length < endSize then none
  else if Bytes.slice data last 4 = endSignature ∧ Bytes.field data (data.length - 2) 2 = 0 then some last
  else
    let start := last - maxComment
    match lastIndex endSignature none start (data.drop start) with
    | none => none
    | some position => if data.length < position + endSize then none else some position

/-- The record at a position, widened if that is called for. -/
def endRecordAt (data : Bytes) (position : Nat) : Except EndFault EndRecord :=
  let plain : EndRecord := ⟨position, Bytes.field data (position + 12) 4, Bytes.field data (position + 16) 4, false⟩
  if position < locatorSize then .ok plain
  else
    let locator := position - locatorSize
    if Bytes.slice data locator 4 ≠ [0x50, 0x4B, 6, 7] then .ok plain
    else if Bytes.field data (locator + 4) 4 ≠ 0 ∨ 1 < Bytes.field data (locator + 16) 4 then .error .multipleDisks
    else if locator < wideEndSize then .error .absent
    else
      let wide := locator - wideEndSize
      if Bytes.slice data wide 4 ≠ [0x50, 0x4B, 6, 6] then .ok plain
      else .ok ⟨position, Bytes.field data (wide + 40) 8, Bytes.field data (wide + 48) 8, true⟩

/-- Looks for the record at the end. -/
def findEnd (data : Bytes) : Except EndFault EndRecord :=
  match endPosition? data with
  | none => .error .absent
  | some position => endRecordAt data position

/-- An entry of the directory.  The written name may go on behind a zero character, where the name ends. -/
structure DirectoryEntry where
  writtenName : String
  flags : Nat
  method : Nat
  checksum : Nat
  packedSize : Nat
  size : Nat
  /-- The position of the entry itself, which may turn out to be negative. -/
  position : Int
  attributes : Nat
deriving DecidableEq, Repr

/-- The name of an entry. -/
def DirectoryEntry.name (e : DirectoryEntry) : String := String.ofList (e.writtenName.toList.takeWhile (· != Char.ofNat 0))

/-- Whether a flag is set. -/
def hasFlag (flags bit : Nat) : Bool := flags / bit % 2 == 1

/-- The flag of an encrypted entry. -/
def encryptedFlag : Nat := 0x1

/-- The flag of a name in UTF-8. -/
def unicodeFlag : Nat := 0x800

/-- Reads a name. -/
def readName (flags : Nat) (b : Bytes) : Except StreamFault String :=
  if hasFlag flags unicodeFlag then
    match Bytes.toString? b with
    | some name => .ok name
    | none => .error .undecodable
  else .ok (CodePage.decode b)

/-- The value of a 32-bit field that may be given by eight bytes elsewhere. -/
def widen (value : Nat) (extra : Bytes) : Except StreamFault (Nat × Bytes) :=
  if value ≠ 0xFFFFFFFF then .ok (value, extra)
  else if extra.length < 8 then .error .malformed
  else .ok (Bytes.field extra 0 8, extra.drop 8)

/-- Applies the additional fields of an entry. -/
def applyExtra : Nat → DirectoryEntry → Bytes → Except StreamFault DirectoryEntry
  | 0, e, _ => .ok e
  | fuel + 1, e, extra =>
    if extra.length < 4 then .ok e
    else
      let length := Bytes.field extra 2 2
      let rest := extra.drop (4 + length)
      if extra.length < 4 + length then .error .malformed
      else if Bytes.field extra 0 2 ≠ 1 then applyExtra fuel e rest
      else do
        let wide := Bytes.slice extra 4 length
        let (size, wide) ← widen e.size wide
        let (packedSize, wide) ← widen e.packedSize wide
        let (position, _) ← widen e.position.toNat wide
        applyExtra fuel { e with size, packedSize, position } rest

/-- The greatest version that is understood. -/
def maxVersion : Nat := 63

/-- The size of an entry of the directory without its texts. -/
def entrySize : Nat := 46

/-- Reads the entries of a directory; `shift` is added to their positions. -/
def readEntries (shift : Int) : Nat → Bytes → Except StreamFault (List DirectoryEntry)
  | 0, _ => .ok []
  | fuel + 1, b => do
    if b.length < entrySize then throw .malformed
    if b.take 4 ≠ [0x50, 0x4B, 1, 2] then throw .malformed
    let nameLength := Bytes.field b 28 2
    let extraLength := Bytes.field b 30 2
    let total := entrySize + nameLength + extraLength + Bytes.field b 32 2
    let flags := Bytes.field b 8 2
    let writtenName ← readName flags (Bytes.slice b entrySize nameLength)
    if maxVersion < Bytes.field b 6 1 then throw .malformed
    let e : DirectoryEntry := {
      writtenName, flags
      method := Bytes.field b 10 2
      checksum := Bytes.field b 16 4
      packedSize := Bytes.field b 20 4
      size := Bytes.field b 24 4
      position := Bytes.field b 42 4
      attributes := Bytes.field b 38 4 }
    let e ← applyExtra extraLength e (Bytes.slice b (entrySize + nameLength) extraLength)
    let e := { e with position := e.position + shift }
    if b.length ≤ total then return [e] else return e :: (← readEntries shift fuel (b.drop total))

/-- The position of the directory. -/
def EndRecord.start (r : EndRecord) : Int :=
  (r.position : Int) - r.directorySize - if r.isWide then (wideEndSize + locatorSize : Int) else 0

/-- Reads the entries of an archive. -/
def directory (data : Bytes) (r : EndRecord) : Except StreamFault (List DirectoryEntry) :=
  if r.start < 0 then .error .malformed
  else if r.directorySize = 0 then .ok []
  else
    let b := Bytes.slice data r.start.toNat r.directorySize
    readEntries (r.start - r.directoryStart) (b.length / entrySize + 1) b

end Handout.Archive.Zip
