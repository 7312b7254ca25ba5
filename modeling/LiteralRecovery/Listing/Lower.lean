import LiteralRecovery.Bytecode.Target
import LiteralRecovery.Constant.Index
import LiteralRecovery.Instruction
import LiteralRecovery.Listing.Basic

/-! From a listing back to code. Constants take their smallest form, values are
looked up in the pool or added to it, and jumps are placed by where their
target nodes ended up. -/
namespace LiteralRecovery

/-- Where the positions of the code a listing was lifted from have gone. -/
structure Relocation where
  targets : Array Nat
  /-- Length of the new code. -/
  limit : Nat
deriving DecidableEq

namespace Relocation

/-- The new place of a position; the end of the code for one past the old end. -/
def map (relocation : Relocation) (position : Nat) : Nat :=
  relocation.targets.getD position relocation.limit

end Relocation

/-- New code and the way there. -/
structure Lowered where
  code : List Bytecode
  relocation : Relocation
deriving DecidableEq

namespace Listing

variable {α : Type}

/-- For every slot the number of live nodes before it. -/
def ranks (list : Listing α) : Array Nat :=
  (list.slots.foldl (fun (ranks, count) slot =>
    (ranks.push count, if slot.isLive then count + 1 else count)) (#[], 0)).1

/-- The place among the live nodes where `id` leads: its own while it is live,
that of the node that follows it otherwise, and the end if none does. -/
def placeOf (list : Listing α) (ranks : Array Nat) (limit : Nat) (id : NodeId) : Nat :=
  match list.resolve id with
  | some live => ranks.getD live limit
  | none => limit

end Listing

namespace Instruction

/-- The load of a constant that fits a 16-bit pool number. -/
def loadConstant (number : UInt16) : Bytecode :=
  if number.toNat < 0x100 then .ldc number.toUInt8 else .pooled .ldcW number

/-- The shortest push of an int. -/
def lowerInt (value : Int32) : ConstantsM PoolError Bytecode :=
  if value = -1 then return .plain .iconstM1
  else if value = 0 then return .plain .iconst0
  else if value = 1 then return .plain .iconst1
  else if value = 2 then return .plain .iconst2
  else if value = 3 then return .plain .iconst3
  else if value = 4 then return .plain .iconst4
  else if value = 5 then return .plain .iconst5
  else if -128 ≤ value ∧ value ≤ 127 then return .bipush value.toInt8
  else if -32768 ≤ value ∧ value ≤ 32767 then return .sipush value.toInt16
  else return loadConstant (← Constants.intern (.integer value))

/-- The shortest push of a long. -/
def lowerLong (value : Int64) : ConstantsM PoolError Bytecode :=
  if value = 0 then return .plain .lconst0
  else if value = 1 then return .plain .lconst1
  else return .pooled .ldc2W (← Constants.intern (.long value))

/-- The code of one instruction. A jump has none on its own. -/
def lower (instruction : Instruction) : ConstantsM CodeError Bytecode :=
  match instruction with
  | .intConst value => (lowerInt value).adapt .constant
  | .longConst value => (lowerLong value).adapt .constant
  | .stringConst value =>
    match value.toText? with
    | some text => return loadConstant (← (Constants.intern (.string text)).adapt .constant)
    | none => throw .loneSurrogate
  | .nullConst => return .plain .aconstNull
  | .bitwise .int .and => return .plain .iand
  | .bitwise .int .or => return .plain .ior
  | .bitwise .int .xor => return .plain .ixor
  | .bitwise .long .and => return .plain .land
  | .bitwise .long .or => return .plain .lor
  | .bitwise .long .xor => return .plain .lxor
  | .getStatic field =>
    return .pooled .getstatic (← (Constants.intern (.field field)).adapt .constant)
  | .putStatic field =>
    return .pooled .putstatic (← (Constants.intern (.field field)).adapt .constant)
  | .invokeStatic target onInterface =>
    let key := if onInterface then ConstantKey.interfaceMethod target else .method target
    return .pooled .invokestatic (← (Constants.intern key).adapt .constant)
  | .newArray .int => return .newarray .int
  | .newArray .long => return .newarray .long
  | .newArray (.reference element) =>
    return .pooled .anewarray (← (Constants.intern (.classRef element)).adapt .constant)
  | .arrayLoad .int => return .plain .iaload
  | .arrayLoad .long => return .plain .laload
  | .arrayLoad .reference => return .plain .aaload
  | .arrayStore .int => return .plain .iastore
  | .arrayStore .long => return .plain .lastore
  | .arrayStore .reference => return .plain .aastore
  | .plain code => return code
  | .jump _ _ => throw .unplacedJump

/-- The code of an instruction in a layout that gives every node its place. -/
def lowerIn (place : NodeId → Nat) (instruction : Instruction) : ConstantsM CodeError Bytecode :=
  match instruction with
  | .jump code targets => liftM (code.withTargets (targets.map place))
  | other => other.lower

end Instruction

/-- The code of a listing that was lifted from `liftedLength` instructions. -/
def lowerCode (list : Listing Instruction) (liftedLength : Nat) : ConstantsM CodeError Lowered := do
  let limit := list.length
  if 0x10000 ≤ limit then throw .tooLong
  let place := list.placeOf list.ranks limit
  let code ← list.toList.mapM (·.lowerIn place)
  let targets := (Array.range liftedLength).map place
  return { code, relocation := { targets, limit } }

end LiteralRecovery
