import LiteralRecovery.Bytes

/-! The compressed form of archive members. Data comes in blocks, either plain
or as a sequence of codes for single bytes and for repetitions of what was
written before. Data that ends too early still stands for what it began to say.
Writing uses plain blocks only. -/
namespace LiteralRecovery.Inflate

/-- Compressed data, read bit by bit, low bits of a byte first, and what it has
stood for so far. -/
structure Progress where
  bytes : ByteArray
  /-- Number of bits taken so far. -/
  position : Nat
  output : ByteArray

/-- Why decompression stopped. -/
inductive Stop where
  | cutShort
  | invalid
deriving DecidableEq

/-- A step of decompression. The output outlives a stop. -/
abbrev Source := ExceptT Stop (StateM Progress)

/-- The byte at an index, if there is one. -/
def byteAt? (bytes : ByteArray) (index : Nat) : Option UInt8 :=
  if h : index < bytes.size then some (bytes.get index h) else none

/-- A value that has to be there. -/
def known : Option α → Source α
  | some value => return value
  | none => throw .invalid

def bit : Source Nat := do
  let source ← get
  match byteAt? source.bytes (source.position / 8) with
  | some byte =>
    modify fun source => { source with position := source.position + 1 }
    return (byte.toNat >>> (source.position % 8)) % 2
  | none => throw .cutShort

def emit (byte : UInt8) : Source Unit :=
  modify fun source => { source with output := source.output.push byte }

/-- A number of `count` bits, lowest first. -/
def bits : (count : Nat) → Source Nat
  | 0 => return 0
  | count + 1 => do
    let low ← bit
    let high ← bits count
    return low + 2 * high

/-- Goes on to the next whole byte. -/
def align : Source Unit :=
  modify fun source => { source with position := (source.position + 7) / 8 * 8 }

/-- A prefix code in canonical order: how many codes there are of each length,
and their symbols from the shortest code to the longest. -/
structure Code where
  counts : Array Nat
  symbols : Array Nat

namespace Code

def ofLengths (lengths : List Nat) : Code where
  counts := (Array.range 16).map fun length => lengths.count length
  symbols := ((List.range 15).flatMap fun shorter =>
    lengths.zipIdx.filterMap fun (length, symbol) =>
      if length = shorter + 1 then some symbol else none).toArray

/-- Reads on to the end of a code. `first` is the first code of the current
length, `index` the place of its symbol, and `value` the bits so far. -/
def symbolFrom (code : Code) : (left : Nat) → (length first index value : Nat) → Source Nat
  | 0, _, _, _, _ => throw .invalid
  | left + 1, length, first, index, value => do
    let value := 2 * value + (← bit)
    let count := code.counts.getD length 0
    if value < first + count then known code.symbols[index + (value - first)]?
    else symbolFrom code left (length + 1) (2 * (first + count)) (index + count) value

def symbol (code : Code) : Source Nat := code.symbolFrom 15 1 0 0 0

end Code

/-- Least length and number of extra bits of each length symbol. -/
def lengthTable : Array (Nat × Nat) :=
  #[(3, 0), (4, 0), (5, 0), (6, 0), (7, 0), (8, 0), (9, 0), (10, 0), (11, 1), (13, 1), (15, 1),
    (17, 1), (19, 2), (23, 2), (27, 2), (31, 2), (35, 3), (43, 3), (51, 3), (59, 3), (67, 4),
    (83, 4), (99, 4), (115, 4), (131, 5), (163, 5), (195, 5), (227, 5), (258, 0)]

/-- Least distance and number of extra bits of each distance symbol. -/
def distanceTable : Array (Nat × Nat) :=
  #[(1, 0), (2, 0), (3, 0), (4, 0), (5, 1), (7, 1), (9, 2), (13, 2), (17, 3), (25, 3), (33, 4),
    (49, 4), (65, 5), (97, 5), (129, 6), (193, 6), (257, 7), (385, 7), (513, 8), (769, 8),
    (1025, 9), (1537, 9), (2049, 10), (3073, 10), (4097, 11), (6145, 11), (8193, 12), (12289, 12),
    (16385, 13), (24577, 13)]

/-- Writes `length` bytes that stand `distance` bytes back. -/
def copy (distance : Nat) : (length : Nat) → Source Unit
  | 0 => return
  | length + 1 => do
    let output := (← get).output
    if output.size < distance then throw .invalid
    emit (← known (byteAt? output (output.size - distance)))
    copy distance length

/-- The codes of a block up to its end. Every code takes a bit, so `steps` may
be the number of bits. -/
def codes (lengths distances : Code) : (steps : Nat) → Source Unit
  | 0 => throw .invalid
  | steps + 1 => do
    let symbol ← lengths.symbol
    if symbol < 256 then
      emit symbol.toUInt8
      codes lengths distances steps
    else if symbol = 256 then return
    else
      let (length, extra) ← known lengthTable[symbol - 257]?
      let length := length + (← bits extra)
      let (distance, extra) ← known distanceTable[← distances.symbol]?
      let distance := distance + (← bits extra)
      copy distance length
      codes lengths distances steps

/-- A plain block: its length, the complement of it, and the bytes. -/
def plainBlock : Source Unit := do
  align
  let length ← bits 16
  let complement ← bits 16
  if length + complement ≠ 0xFFFF then throw .invalid
  let source ← get
  let start := source.position / 8
  set { source with
    position := source.position + 8 * length
    output := source.output ++ source.bytes.extract start (start + length) }
  if source.bytes.size < start + length then throw .cutShort

/-- The code lengths of blocks that bring no codes of their own. -/
def fixedLengths : List Nat :=
  List.replicate 144 8 ++ List.replicate 112 9 ++ List.replicate 24 7 ++ List.replicate 8 8

/-- Code lengths, themselves coded: a length, or a repetition of the last one or
of zero. -/
def codeLengths (code : Code) (count : Nat) : (steps : Nat) → Array Nat → Source (Array Nat)
  | 0, _ => throw .invalid
  | steps + 1, lengths =>
    if lengths.size = count then return lengths
    else if count < lengths.size then throw .invalid
    else do
      let symbol ← code.symbol
      if symbol < 16 then codeLengths code count steps (lengths.push symbol)
      else
        let (value, repetitions) ← match symbol with
          | 16 => do pure (← known lengths.back?, 3 + (← bits 2))
          | 17 => do pure (0, 3 + (← bits 3))
          | _ => do pure (0, 11 + (← bits 7))
        codeLengths code count steps (lengths ++ Array.replicate repetitions value)

/-- The order in which the lengths of the length code stand. -/
def lengthOrder : List Nat := [16, 17, 18, 0, 8, 7, 9, 6, 10, 5, 11, 4, 12, 3, 13, 2, 14, 1, 15]

/-- The codes that a block brings along. -/
def blockCodes : Source (Code × Code) := do
  let lengths := 257 + (← bits 5)
  let distances := 1 + (← bits 5)
  let given ← (lengthOrder.take (4 + (← bits 4))).mapM fun symbol => return (symbol, ← bits 3)
  let code := Code.ofLengths ((List.range 19).map fun symbol => (given.lookup symbol).getD 0)
  let all ← codeLengths code (lengths + distances) (lengths + distances + 1) #[]
  return (.ofLengths (all.toList.take lengths), .ofLengths (all.toList.drop lengths))

/-- The blocks up to the last one. -/
def blocks : (steps : Nat) → Source Unit
  | 0 => throw .invalid
  | steps + 1 => do
    let isLast := (← bit) = 1
    let available := 8 * (← get).bytes.size
    match ← bits 2 with
    | 0 => plainBlock
    | 1 => codes (.ofLengths fixedLengths) (.ofLengths (List.replicate 30 5)) available
    | 2 =>
      let (lengths, distances) ← blockCodes
      codes lengths distances available
    | _ => throw .invalid
    unless isLast do blocks steps

/-- The data behind its compressed form. -/
def inflate? (packed : Bytes) : Option Bytes :=
  match (blocks (8 * packed.length + 1)).run.run ⟨⟨packed.toArray⟩, 0, .empty⟩ with
  | (.ok (), done) | (.error .cutShort, done) => some done.output.toList
  | (.error .invalid, _) => none

/-- Plain blocks of up to 65535 bytes, the last one marked. -/
def plainBlocks : (steps : Nat) → Bytes → Bytes
  | 0, _ => []
  | steps + 1, data =>
    let (head, rest) := data.splitAt 0xFFFF
    let length := head.length.toUInt16
    let complement := 0xFFFF - length
    let header : Bytes :=
      [if rest.isEmpty then 1 else 0, length.toUInt8, (length >>> 8).toUInt8,
       complement.toUInt8, (complement >>> 8).toUInt8]
    header ++ head ++ (if rest.isEmpty then [] else plainBlocks steps rest)

/-- A compressed form of the data, in plain blocks. -/
def deflate (data : Bytes) : Bytes := plainBlocks (data.length / 0xFFFF + 1) data

end LiteralRecovery.Inflate
