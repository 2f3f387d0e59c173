import Handout.Bytes

/-!
# Deflated data

`inflate` restores deflated data: stored blocks and blocks of Huffman-coded literals and back references, with fixed
codes or codes of their own.  It also tells how much of the input it has used and whether the data ended, broke off
or was damaged.  `store` writes data as stored blocks.
-/

namespace Handout.Archive

/-- Why restoring data stops before its end. -/
inductive InflateStop where
  | exhausted
  | damaged
deriving DecidableEq, Repr

/-- Restored data, the number of bytes of the input that were used, and what went wrong. -/
structure Inflated where
  output : Bytes
  used : Nat
  stop : Option InflateStop

namespace Inflate

/-- The input, the position in it in bits, and the output so far. -/
structure State where
  input : ByteArray
  position : Nat := 0
  output : ByteArray := ByteArray.empty

/-- A step of restoring data. -/
abbrev Step (α : Type) := ExceptT InflateStop (StateM State) α

/-- The next bit. -/
def bit : Step Nat := do
  let s ← get
  let i := s.position / 8
  if h : i < s.input.size then
    let b := ((s.input.get i h).toNat >>> (s.position % 8)) % 2
    modify fun s => { s with position := s.position + 1 }
    return b
  else throw .exhausted

/-- The number on the next `n` bits, least significant bit first. -/
def bits : Nat → Step Nat
  | 0 => return 0
  | n + 1 => do
    let b ← bit
    return b + 2 * (← bits n)

/-- Adds a byte to the output. -/
def emit (b : UInt8) : Step Unit := modify fun s => { s with output := s.output.push b }

/-- Repeats bytes of the output from `distance` bytes back. -/
def copyBack (distance : Nat) : Nat → ByteArray → ByteArray
  | 0, out => out
  | n + 1, out => copyBack distance n (out.push ((out.data[out.size - distance]?).getD 0))

/-- A canonical code: how many codes each length has, and the symbols in order of their codes. -/
structure Code where
  counts : List Nat
  symbols : Array Nat

/-- The greatest length of a code. -/
def maxLength : Nat := 15

/-- The code with the given lengths of the codes of its symbols, where zero means that a symbol has none. -/
def Code.ofLengths (lengths : List Nat) : Code :=
  let indexed := lengths.zipIdx
  let ofLength (l : Nat) : List Nat := (indexed.filter fun e => e.1 == l).map Prod.snd
  let groups := (List.range maxLength).map fun i => ofLength (i + 1)
  ⟨groups.map List.length, groups.flatten.toArray⟩

/-- How many codes of greatest length are left; nothing if there are too many codes. -/
def Code.left? (c : Code) : Option Nat :=
  c.counts.foldl (fun left? n => left?.bind fun left => if n ≤ 2 * left then some (2 * left - n) else none) (some 1)

/-- Whether a code may be used: it is complete, or it has at most one symbol, which has the shortest code. -/
def Code.isUsable (c : Code) (single : Bool) : Bool :=
  match c.left? with
  | none => false
  | some 0 => true
  | some _ => c.symbols.isEmpty || (single && c.symbols.size == 1 && c.counts.headD 0 == 1)

/-- Reads a symbol; `first` is the first code of the current length and `index` its place among the symbols. -/
def symbolFrom (c : Code) (code first index : Nat) : List Nat → Step Nat
  | [] => throw .damaged
  | n :: counts => do
    let code := code + (← bit)
    if code < first + n then return c.symbols.getD (index + (code - first)) 0
    else symbolFrom c (2 * code) (2 * (first + n)) (index + n) counts

/-- Reads a symbol. -/
def symbol (c : Code) : Step Nat := symbolFrom c 0 0 0 c.counts

/-- The least lengths of back references and their numbers of extra bits. -/
def lengthTable : Array (Nat × Nat) := #[
  (3, 0), (4, 0), (5, 0), (6, 0), (7, 0), (8, 0), (9, 0), (10, 0), (11, 1), (13, 1), (15, 1), (17, 1), (19, 2),
  (23, 2), (27, 2), (31, 2), (35, 3), (43, 3), (51, 3), (59, 3), (67, 4), (83, 4), (99, 4), (115, 4), (131, 5),
  (163, 5), (195, 5), (227, 5), (258, 0)]

/-- The least distances of back references and their numbers of extra bits. -/
def distanceTable : Array (Nat × Nat) := #[
  (1, 0), (2, 0), (3, 0), (4, 0), (5, 1), (7, 1), (9, 2), (13, 2), (17, 3), (25, 3), (33, 4), (49, 4), (65, 5),
  (97, 5), (129, 6), (193, 6), (257, 7), (385, 7), (513, 8), (769, 8), (1025, 9), (1537, 9), (2049, 10),
  (3073, 10), (4097, 11), (6145, 11), (8193, 12), (12289, 12), (16385, 13), (24577, 13)]

/-- The symbols of a block up to its end. -/
def codedLoop (literals distances : Code) : Nat → Step Unit
  | 0 => throw .damaged
  | fuel + 1 => do
    let s ← symbol literals
    if s < 256 then
      emit (UInt8.ofNat s)
      codedLoop literals distances fuel
    else if s = 256 then return ()
    else
      match lengthTable[s - 257]? with
      | none => throw .damaged
      | some (least, extra) =>
        let length := least + (← bits extra)
        let d ← symbol distances
        match distanceTable[d]? with
        | none => throw .damaged
        | some (least, extra) =>
          let distance := least + (← bits extra)
          if (← get).output.size < distance then throw .damaged
          modify fun s => { s with output := copyBack distance length s.output }
          codedLoop literals distances fuel

/-- A bound on the number of symbols. -/
def fuel : Step Nat := do return 8 * (← get).input.size + 2

/-- A block of coded symbols. -/
def coded (literals distances : Code) : Step Unit := do codedLoop literals distances (← fuel)

/-- The fixed code of literals and lengths. -/
def fixedLiterals : Code :=
  .ofLengths (List.replicate 144 8 ++ List.replicate 112 9 ++ List.replicate 24 7 ++ List.replicate 8 8)

/-- The fixed code of distances. -/
def fixedDistances : Code := .ofLengths (List.replicate 30 5)

/-- Copies bytes of a stored block. -/
def storedLoop : Nat → Step Unit
  | 0 => return ()
  | n + 1 => do
    emit (UInt8.ofNat (← bits 8))
    storedLoop n

/-- A stored block. -/
def stored : Step Unit := do
  modify fun s => { s with position := (s.position + 7) / 8 * 8 }
  let length ← bits 16
  let complement ← bits 16
  if length + complement != 65535 then throw .damaged
  storedLoop length

/-- The order in which the lengths of the codes for lengths are written. -/
def lengthOrder : List Nat := [16, 17, 18, 0, 8, 7, 9, 6, 10, 5, 11, 4, 12, 3, 13, 2, 14, 1, 15]

/-- The lengths of codes, some of them repeated; `n` are still missing. -/
def lengthsLoop (c : Code) (total : Nat) : Nat → List Nat → Step (List Nat)
  | 0, _ => throw .damaged
  | fuel + 1, read => do
    if total ≤ read.length then return read.reverse
    let s ← symbol c
    if s < 16 then lengthsLoop c total fuel (s :: read)
    else
      let (value, count) ← if s = 16 then
          match read with
          | [] => throw .damaged
          | l :: _ => pure (l, 3 + (← bits 2))
        else if s = 17 then pure (0, 3 + (← bits 3))
        else pure (0, 11 + (← bits 7))
      if total < read.length + count then throw .damaged
      lengthsLoop c total fuel (List.replicate count value ++ read)

/-- A block with codes of its own. -/
def dynamic : Step Unit := do
  let literalCount := 257 + (← bits 5)
  let distanceCount := 1 + (← bits 5)
  let lengthCount := 4 + (← bits 4)
  if 286 < literalCount || 30 < distanceCount then throw .damaged
  let written ← (List.range lengthCount).mapM fun _ => bits 3
  let pairs := lengthOrder.zip written
  let lengthCode := Code.ofLengths ((List.range 19).map fun i => (pairs.lookup i).getD 0)
  if !lengthCode.isUsable false || lengthCode.symbols.isEmpty then throw .damaged
  let lengths ← lengthsLoop lengthCode (literalCount + distanceCount) (literalCount + distanceCount + 1) []
  if lengths.getD 256 0 = 0 then throw .damaged
  let literals := Code.ofLengths (lengths.take literalCount)
  let distances := Code.ofLengths (lengths.drop literalCount)
  if !literals.isUsable true || !distances.isUsable true then throw .damaged
  coded literals distances

/-- The blocks up to the last one. -/
def blocks : Nat → Step Unit
  | 0 => throw .damaged
  | fuel + 1 => do
    let last ← bit
    let kind ← bits 2
    if kind = 0 then stored
    else if kind = 1 then coded fixedLiterals fixedDistances
    else if kind = 2 then dynamic
    else throw .damaged
    if last = 1 then return () else blocks fuel

end Inflate

/-- Restores deflated data. -/
def inflate (input : Bytes) : Inflated :=
  let act : Inflate.Step Unit := do Inflate.blocks (← Inflate.fuel)
  let (result, s) := act.run { input := ⟨input.toArray⟩ }
  let stop := match result with
    | .ok () => none
    | .error e => some e
  ⟨s.output.data.toList, (s.position + 7) / 8, stop⟩

/-- The greatest length of a stored block. -/
def maxStored : Nat := 65535

/-- A stored block. -/
def storedBlock (last : Bool) (data : Bytes) : Bytes :=
  (if last then 1 else 0) :: Bytes.le 2 data.length ++ Bytes.le 2 (65535 - data.length) ++ data

/-- Stored blocks before and including the last one. -/
def storeBlocks : Nat → Bytes → Bytes
  | 0, data => storedBlock true data
  | n + 1, data =>
    if data.length ≤ maxStored then storedBlock true data
    else storedBlock false (data.take maxStored) ++ storeBlocks n (data.drop maxStored)

/-- Deflates data without making it shorter. -/
def store (data : Bytes) : Bytes := storeBlocks (data.length / maxStored) data

end Handout.Archive
