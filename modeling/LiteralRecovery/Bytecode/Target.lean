import LiteralRecovery.Bytecode.Basic
import LiteralRecovery.Constant.Pool

/-! The code positions among an instruction's operands: the target of a branch,
or the default of a switch followed by its cases. -/
namespace LiteralRecovery

/-- Why code could not be brought into a listing or out of it. -/
inductive CodeError where
  | constant (cause : PoolError)
  | loneSurrogate
  | negativeTarget
  | targetOverflow
  | lostTarget
  | unplacedJump
  | tooLong
deriving DecidableEq

namespace CodeError

def message : CodeError → String
  | .constant cause => cause.message
  | .loneSurrogate =>
    "string constant holds a lone surrogate: invalid utf-16: lone surrogate found"
  | .negativeTarget => "negative jump target: number too small to fit in target type"
  | .targetOverflow => "jump target overflows: number too large to fit in target type"
  | .lostTarget => "jump lost a target"
  | .unplacedJump => "jumps are lowered against the code layout"
  | .tooLong => "method exceeds 65535 instructions: number too large to fit in target type"

end CodeError

namespace Bytecode

/-- The wide code positions of an instruction that has any. -/
def wideTargets : Bytecode → List Int32
  | .branchWide _ target => [target]
  | .tableswitch fallback _ _ targets => fallback :: targets
  | .lookupswitch fallback cases => fallback :: cases.map (·.2)
  | _ => []

/-- A wide position as a count; negative ones have none. -/
def position (target : Int32) : Except CodeError Nat :=
  if target < 0 then .error .negativeTarget else .ok target.toInt.toNat

/-- The code positions in operand order, or nothing for an instruction that
neither branches nor switches. -/
def targets? (code : Bytecode) : Except CodeError (Option (List Nat)) :=
  match code with
  | .branch _ target => .ok (some [target.toNat])
  | .branchWide _ _ | .tableswitch _ _ _ _ | .lookupswitch _ _ =>
    return some (← code.wideTargets.mapM position)
  | _ => .ok none

/-- Takes the next of the given positions for a 16-bit operand. -/
def placeShort : List Nat → Except CodeError (UInt16 × List Nat)
  | [] => .error .lostTarget
  | position :: rest =>
    if position < 0x10000 then .ok (position.toUInt16, rest) else .error .targetOverflow

/-- Takes the next of the given positions for a 32-bit operand, which must not
have been negative. -/
def placeWide (operand : Int32) (positions : List Nat) : Except CodeError (Int32 × List Nat) := do
  let _ ← position operand
  match positions with
  | [] => .error .lostTarget
  | position :: rest =>
    if position < 0x80000000 then .ok (Int32.ofNat position, rest) else .error .targetOverflow

/-- Takes positions for 32-bit operands one after the other. -/
def placeEach : List Int32 → List Nat → Except CodeError (List Int32)
  | [], _ => .ok []
  | operand :: operands, positions => do
    let (placed, rest) ← placeWide operand positions
    return placed :: (← placeEach operands rest)

/-- The instruction with its code positions replaced in operand order. Positions
to spare are ignored, and so are all for an instruction that has no operand of
that kind. -/
def withTargets (code : Bytecode) (positions : List Nat) : Except CodeError Bytecode :=
  match code with
  | .branch op _ => return .branch op (← placeShort positions).1
  | .branchWide op target => return .branchWide op (← placeWide target positions).1
  | .tableswitch fallback low high targets => do
    let (fallback, rest) ← placeWide fallback positions
    return .tableswitch fallback low high (← placeEach targets rest)
  | .lookupswitch fallback cases => do
    let (fallback, rest) ← placeWide fallback positions
    let targets ← placeEach (cases.map (·.2)) rest
    return .lookupswitch fallback ((cases.map (·.1)).zip targets)
  | other => .ok other

end Bytecode

end LiteralRecovery
