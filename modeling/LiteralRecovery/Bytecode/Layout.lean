import LiteralRecovery.Bytecode.Basic
import LiteralRecovery.Bytes

/-! Code arrays. In a file, branches are distances in bytes; decoded, a branch
names the index of an instruction, and the operands of a switch count the
instructions from the switch to the target. A layout relates the two. -/
namespace LiteralRecovery

/-- Where the instructions of a code array start. -/
structure CodeLayout where
  /-- Byte offset of each instruction. -/
  starts : Array Nat
  /-- Index of the instruction that starts at each byte offset, if one does. -/
  indexes : Array (Option Nat)

namespace CodeLayout

def ofStarts (starts : List Nat) (length : Nat) : CodeLayout where
  starts := starts.toArray
  indexes := starts.zipIdx.foldl (fun indexes (start, index) =>
    indexes.setIfInBounds start (some index)) (Array.replicate length none)

def offset? (layout : CodeLayout) (index : Nat) : Option Nat := layout.starts[index]?

def index? (layout : CodeLayout) (offset : Nat) : Option Nat := layout.indexes[offset]?.join

/-- Index of the last instruction that starts at `offset` or before. -/
def indexUpTo? (layout : CodeLayout) (offset : Nat) : Option Nat :=
  match layout.starts.countP (· ≤ offset) with
  | 0 => none
  | count + 1 => some count

/-- Offset of the last instruction up to `index`. -/
def offsetUpTo? (layout : CodeLayout) (index : Nat) : Option Nat :=
  layout.starts[min index (layout.starts.size - 1)]?

end CodeLayout

namespace Bytecode

/-- Number of bytes between a switch's opcode and its operands. -/
def padding (offset : Nat) : Nat := 3 - offset % 4

/-- The target of a branch at `offset`, as a byte offset that fits 16 bits. -/
def byteTarget (offset : Nat) (distance : Int) : Option UInt16 :=
  let target := (offset : Int) + distance
  if 0 ≤ target ∧ target < 0x10000 then some target.toNat.toUInt16 else none

def readTableswitch (offset : Nat) : Reader Bytecode := do
  let _ ← Reader.take (padding offset)
  let fallback ← Reader.i32
  let low ← Reader.i32
  let high ← Reader.i32
  let count := (high.toInt - low.toInt + 1).toNat
  Reader.ahead (4 * count)
  return .tableswitch fallback low high (← Reader.times count Reader.i32)

/-- A count of cases below zero stands for none. -/
def readLookupswitch (offset : Nat) : Reader Bytecode := do
  let _ ← Reader.take (padding offset)
  let fallback ← Reader.i32
  let count ← Reader.i32
  Reader.ahead (8 * count.toInt.toNat)
  return .lookupswitch fallback
    (← Reader.times count.toInt.toNat do return (← Reader.i32, ← Reader.i32))

/-- The instruction behind a `wide` marker. -/
def readWide : Reader Bytecode := do
  let opcode ← Reader.u8
  if opcode == 132 then return .iincWide (← Reader.u16) (← Reader.i16)
  else if opcode == 169 then return .retWide (← Reader.u16)
  else if let some kind := LocalKind.ofRow? (opcode - 21) then
    return .loadWide kind (← Reader.u16)
  else if let some kind := LocalKind.ofRow? (opcode - 54) then
    return .storeWide kind (← Reader.u16)
  else failure

/-- The operands of the local variable instructions: a slot of their own, or one
of four that the opcode names. -/
def readLocal? (opcode : UInt8) : Option (Reader Bytecode) :=
  if let some kind := LocalKind.ofRow? (opcode - 21) then
    some (return .load kind (← Reader.u8))
  else if let some kind := LocalKind.ofRow? (opcode - 54) then
    some (return .store kind (← Reader.u8))
  else if 26 ≤ opcode && opcode < 46 then
    (LocalKind.ofRow? ((opcode - 26) / 4)).map fun kind =>
      return .loadShort kind (Fin.ofNat 4 (opcode - 26).toNat)
  else if 59 ≤ opcode && opcode < 79 then
    (LocalKind.ofRow? ((opcode - 59) / 4)).map fun kind =>
      return .storeShort kind (Fin.ofNat 4 (opcode - 59).toNat)
  else none

/-- An instruction with operands of a shape of its own. -/
def readSpecial (opcode : UInt8) (offset : Nat) : Reader Bytecode :=
  match opcode.toNat with
  | 16 => return .bipush (← Reader.i8)
  | 17 => return .sipush (← Reader.i16)
  | 18 => return .ldc (← Reader.u8)
  | 132 => return .iinc (← Reader.u8) (← Reader.i8)
  | 169 => return .ret (← Reader.u8)
  | 170 => readTableswitch offset
  | 171 => readLookupswitch offset
  | 185 => do
    let index ← Reader.u16
    let count ← Reader.u8
    Reader.require ((← Reader.u8) == 0)
    return .invokeinterface index count
  | 186 => do
    let index ← Reader.u16
    Reader.require ((← Reader.u16) == 0)
    return .invokedynamic index
  | 188 => return .newarray (← liftM (ArrayElement.ofCode? (← Reader.u8)))
  | 196 => readWide
  | 197 => return .multianewarray (← Reader.u16) (← Reader.u8)
  | _ => failure

/-- The instruction at a byte offset. Branches still name byte offsets, and
switches distances in bytes. -/
def readAt (offset : Nat) : Reader Bytecode := do
  let opcode ← Reader.u8
  if let some op := PlainOp.ofOpcode? opcode then return .plain op
  else if let some op := PoolOp.ofOpcode? opcode then return .pooled op (← Reader.u16)
  else if let some op := BranchOp.ofOpcode? opcode then
    return .branch op (← liftM (byteTarget offset (← Reader.i16).toInt))
  else if let some op := WideBranchOp.ofOpcode? opcode then
    let target : UInt16 ← liftM (byteTarget offset (← Reader.i32).toInt)
    return .branchWide op (Int32.ofNat target.toNat)
  else if let some reader := readLocal? opcode then reader
  else readSpecial opcode offset

/-- Number of bytes that an instruction at `offset` takes. -/
def width (offset : Nat) : Bytecode → Nat
  | .plain _ | .loadShort _ _ | .storeShort _ _ => 1
  | .bipush _ | .ldc _ | .load _ _ | .store _ _ | .ret _ | .newarray _ => 2
  | .sipush _ | .pooled _ _ | .iinc _ _ | .branch _ _ => 3
  | .loadWide _ _ | .storeWide _ _ | .retWide _ | .multianewarray _ _ => 4
  | .branchWide _ _ | .invokeinterface _ _ | .invokedynamic _ => 5
  | .iincWide _ _ => 6
  | .tableswitch _ _ _ targets => 1 + padding offset + 12 + 4 * targets.length
  | .lookupswitch _ cases => 1 + padding offset + 8 + 8 * cases.length

/-- The instructions of a code array with their offsets, added in front of
`done`. Every instruction takes at least one byte, so `steps` counts bytes. -/
def readOnto : (steps : Nat) → (offset : Nat) → (done : List (Nat × Bytecode)) → Bytes →
    Option (List (Nat × Bytecode))
  | _, _, done, [] => some done.reverse
  | 0, _, _, _ :: _ => none
  | steps + 1, offset, done, bytes =>
    match readAt offset bytes with
    | some (code, rest) =>
      readOnto steps (offset + code.width offset) ((offset, code) :: done) rest
    | none => none

/-- The distance in instructions from the switch with number `index` to a target
`distance` bytes after the switch's own offset. Targets lie ahead. -/
def instructionDistance (layout : CodeLayout) (index offset : Nat) (distance : Int32) :
    Option Int32 := do
  let target := (offset : Int) + distance.toInt
  if target < 0 then none
  else
    let targetIndex ← layout.index? target.toNat
    if targetIndex < index then none else some (Int32.ofNat (targetIndex - index))

/-- Puts a case behind the others; a repeated key keeps its place and takes the
new target. -/
def addCase (cases : List (Int32 × Int32)) (key target : Int32) : List (Int32 × Int32) :=
  if cases.any (·.1 = key) then
    cases.map fun (known, old) => if known = key then (known, target) else (known, old)
  else cases ++ [(key, target)]

/-- An instruction with its byte positions turned into instruction positions. -/
def toIndexes (layout : CodeLayout) (index offset : Nat) (code : Bytecode) : Option Bytecode :=
  match code with
  | .branch op target => return .branch op (← layout.index? target.toNat).toUInt16
  | .branchWide op target =>
    return .branchWide op (Int32.ofNat (← layout.index? target.toInt.toNat))
  | .tableswitch fallback low high targets => do
    let distance := instructionDistance layout index offset
    return .tableswitch (← distance fallback) low high (← targets.mapM distance)
  | .lookupswitch fallback cases => do
    let distance := instructionDistance layout index offset
    let cases := cases.foldl (fun cases (key, target) => addCase cases key target) []
    let cases ← cases.mapM fun (key, target) => return (key, ← distance target)
    return .lookupswitch (← distance fallback) cases
  | other => some other

/-- The distance in bytes from `offset` to the instruction with a given number. -/
def byteDistance (layout : CodeLayout) (offset : Nat) (target : Int) : Option Int := do
  if target < 0 then none
  else
    let targetOffset ← layout.offset? target.toNat
    return (targetOffset : Int) - (offset : Int)

/-- A distance that fits 16 bits. -/
def shortDistance (distance : Int) : Option Int16 :=
  if -0x8000 ≤ distance ∧ distance < 0x8000 then some (Int16.ofInt distance) else none

/-- The operand of the switch with number `index` at byte `offset` that leads
`distance` instructions ahead. -/
def switchOperand (layout : CodeLayout) (index offset : Nat) (distance : Int32) :
    Option Bytes := do
  if distance < 0 then none
  else return Bytes.ofI32 (Int32.ofInt (← byteDistance layout offset (index + distance.toInt)))

/-- The bytes of the instruction with number `index` at byte `offset`. -/
def writeAt (layout : CodeLayout) (index offset : Nat) (code : Bytecode) : Option Bytes :=
  match code with
  | .plain op => some [op.opcode]
  | .bipush value => some [16, value.toUInt8]
  | .sipush value => some (17 :: Bytes.ofI16 value)
  | .ldc number => some [18, number]
  | .pooled op number => some (op.opcode :: Bytes.ofU16 number)
  | .loadShort kind slot => some [26 + 4 * kind.row + slot.val.toUInt8]
  | .load kind slot => some [21 + kind.row, slot]
  | .loadWide kind slot => some (196 :: (21 + kind.row) :: Bytes.ofU16 slot)
  | .storeShort kind slot => some [59 + 4 * kind.row + slot.val.toUInt8]
  | .store kind slot => some [54 + kind.row, slot]
  | .storeWide kind slot => some (196 :: (54 + kind.row) :: Bytes.ofU16 slot)
  | .ret slot => some [169, slot]
  | .retWide slot => some (196 :: 169 :: Bytes.ofU16 slot)
  | .iinc slot amount => some [132, slot, amount.toUInt8]
  | .iincWide slot amount => some (196 :: 132 :: Bytes.ofU16 slot ++ Bytes.ofI16 amount)
  | .branch op target => do
    let distance ← shortDistance (← byteDistance layout offset target.toNat)
    return op.opcode :: Bytes.ofI16 distance
  | .branchWide op target => do
    let distance ← byteDistance layout offset target.toInt
    return op.opcode :: Bytes.ofI32 (Int32.ofInt distance)
  | .tableswitch fallback low high targets => do
    let fallback ← switchOperand layout index offset fallback
    let targets ← targets.mapM (switchOperand layout index offset)
    return 170 :: List.replicate (padding offset) 0 ++ fallback ++ Bytes.ofI32 low ++
      Bytes.ofI32 high ++ targets.flatten
  | .lookupswitch fallback cases => do
    let fallback ← switchOperand layout index offset fallback
    let pairs ← cases.mapM fun (key, target) => do
      return Bytes.ofI32 key ++ (← switchOperand layout index offset target)
    return 171 :: List.replicate (padding offset) 0 ++ fallback ++
      Bytes.ofI32 (Int32.ofNat cases.length) ++ pairs.flatten
  | .invokeinterface number count => some (185 :: Bytes.ofU16 number ++ [count, 0])
  | .invokedynamic number => some (186 :: Bytes.ofU16 number ++ [0, 0])
  | .newarray element => some [188, element.code]
  | .multianewarray number dimensions => some (197 :: Bytes.ofU16 number ++ [dimensions])

/-- Byte offsets of the instructions of a code array, and its length. -/
def offsets (code : List Bytecode) : List Nat × Nat :=
  let (starts, length) := code.foldl (fun (starts, offset) instruction =>
    (offset :: starts, offset + instruction.width offset)) ([], 0)
  (starts.reverse, length)

end Bytecode

/-- The instructions of a code array, with its layout. Every instruction has to
start at an offset that fits 16 bits. -/
def decodeCode (bytes : Bytes) : Option (List Bytecode × CodeLayout) := do
  let placed ← Bytecode.readOnto bytes.length 0 [] bytes
  if placed.any (0x10000 ≤ ·.1) then none
  else
    let layout := CodeLayout.ofStarts (placed.map (·.1)) bytes.length
    let code ← placed.zipIdx.mapM fun ((offset, code), index) => code.toIndexes layout index offset
    return (code, layout)

/-- The bytes of a code array, with its layout. Every instruction has to start
at an offset that fits 16 bits. -/
def encodeCode (code : List Bytecode) : Option (Bytes × CodeLayout) := do
  let (starts, length) := Bytecode.offsets code
  if starts.any (0x10000 ≤ ·) then none
  else
    let layout := CodeLayout.ofStarts starts length
    let parts ← (code.zip starts).zipIdx.mapM fun ((code, offset), index) =>
      code.writeAt layout index offset
    return (parts.flatten, layout)

end LiteralRecovery
