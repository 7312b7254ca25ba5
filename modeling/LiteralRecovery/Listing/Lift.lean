import LiteralRecovery.Bytecode.Target
import LiteralRecovery.Constant.Index
import LiteralRecovery.Instruction
import LiteralRecovery.Listing.Basic

/-! From decoded code to a listing: constants and references are read off the
pool, jumps name nodes, and node `i` holds instruction `i`. -/
namespace LiteralRecovery

/-- An instruction that could not be lifted, with its position. -/
structure LiftError where
  position : Nat
  code : Bytecode
  cause : CodeError
deriving DecidableEq

namespace LiftError

def message (error : LiftError) : String :=
  "decode instruction " ++ toString error.position ++ " (" ++ error.code.render ++ "): " ++
    error.cause.message

end LiftError

namespace Bytecode

/-- The constant that `code` loads from pool number `number`. -/
def liftLoad (code : Bytecode) (number : UInt16) : ConstantsM PoolError Instruction := do
  match ← Constants.loadable number with
  | some (.integer value) => return .intConst value
  | some (.long value) => return .longConst value
  | some (.string text) => return .stringConst (UnitString.ofText text)
  | _ => return .plain code

/-- An instruction whose operands are carried along, apart from its targets. -/
def liftOther (code : Bytecode) : Except CodeError Instruction := do
  match ← code.targets? with
  | some targets => return .jump code targets
  | none => return .plain code

/-- What one instruction means to the passes. -/
def lift (code : Bytecode) : ConstantsM CodeError Instruction :=
  match code with
  | .plain .iconstM1 => return .intConst (-1)
  | .plain .iconst0 => return .intConst 0
  | .plain .iconst1 => return .intConst 1
  | .plain .iconst2 => return .intConst 2
  | .plain .iconst3 => return .intConst 3
  | .plain .iconst4 => return .intConst 4
  | .plain .iconst5 => return .intConst 5
  | .bipush value => return .intConst value.toInt32
  | .sipush value => return .intConst value.toInt32
  | .plain .lconst0 => return .longConst 0
  | .plain .lconst1 => return .longConst 1
  | .plain .aconstNull => return .nullConst
  | .ldc number => (code.liftLoad number.toUInt16).adapt .constant
  | .pooled .ldcW number | .pooled .ldc2W number => (code.liftLoad number).adapt .constant
  | .plain .iand => return .bitwise .int .and
  | .plain .ior => return .bitwise .int .or
  | .plain .ixor => return .bitwise .int .xor
  | .plain .land => return .bitwise .long .and
  | .plain .lor => return .bitwise .long .or
  | .plain .lxor => return .bitwise .long .xor
  | .pooled .getstatic number =>
    return .getStatic (← (Constants.fieldRef number).adapt .constant)
  | .pooled .putstatic number =>
    return .putStatic (← (Constants.fieldRef number).adapt .constant)
  | .pooled .invokestatic number => do
    let (target, onInterface) ← (Constants.methodRef number).adapt .constant
    return .invokeStatic target onInterface
  | .newarray .int => return .newArray .int
  | .newarray .long => return .newArray .long
  | .pooled .anewarray number =>
    return .newArray (.reference (← (Constants.classRef number).adapt .constant))
  | .plain .iaload => return .arrayLoad .int
  | .plain .laload => return .arrayLoad .long
  | .plain .aaload => return .arrayLoad .reference
  | .plain .iastore => return .arrayStore .int
  | .plain .lastore => return .arrayStore .long
  | .plain .aastore => return .arrayStore .reference
  | other => liftM other.liftOther

end Bytecode

/-- The listing of a code sequence. -/
def liftCode (code : List Bytecode) : ConstantsM LiftError (Listing Instruction) := do
  let instructions ← code.zipIdx.mapM fun (code, position) =>
    code.lift.adapt fun cause => { position, code, cause }
  return Listing.ofList instructions

end LiteralRecovery
