import LiteralRecovery.ClassFile.Basic
import LiteralRecovery.Listing.Lower

/-! A method body moves to new code: exception ranges, stack map frames, line
numbers and local variables follow the instructions they were about. -/
namespace LiteralRecovery

/-- Why a body could not be given new code. -/
inductive BodyError where
  | code (cause : CodeError)
  | frameOverflow
  /-- No instruction is left at or behind the frame. -/
  | frameLost (position : Nat)
  /-- Two frames would stand at one instruction. -/
  | framesCollapsed (position : Nat)
deriving DecidableEq

namespace BodyError

def message : BodyError → String
  | .code cause => cause.message
  | .frameOverflow => "stack map frame offset overflows"
  | .frameLost position =>
    "stack map frame at instruction " ++ toString position ++ " lost its instruction"
  | .framesCollapsed position =>
    "stack map frames collapsed onto instruction " ++ toString position

end BodyError

namespace StackFrame

/-- The frame at another distance, in the shortest form its shape has for it. -/
def withDelta (frame : StackFrame) (delta : UInt16) : StackFrame :=
  match frame.shape with
  | .same | .sameExtended => ⟨if delta.toNat ≤ 63 then .same else .sameExtended, delta⟩
  | .oneItem item | .oneItemExtended item =>
    ⟨if delta.toNat ≤ 63 then .oneItem item else .oneItemExtended item, delta⟩
  | shape => ⟨shape, delta⟩

end StackFrame

namespace Relocation

/-- A position in 16 bits. -/
def move (relocation : Relocation) (position : UInt16) : UInt16 :=
  (relocation.map position.toNat).toUInt16

/-- The frames at their new distances; `previous` holds the old and the new
position of the frame before. -/
def framesFrom (relocation : Relocation) :
    (previous : Option (Nat × Nat)) → List StackFrame → Except BodyError (List StackFrame)
  | _, [] => .ok []
  | previous, frame :: rest => do
    let position := match previous with
      | none => frame.delta.toNat
      | some (old, _) => old + frame.delta.toNat + 1
    if 0x10000 ≤ position then throw .frameOverflow
    let target := relocation.map position
    if relocation.limit ≤ target then throw (.frameLost position)
    let delta ← match previous with
      | none => pure target
      | some (_, new) =>
        if new < target then pure (target - new - 1) else throw (.framesCollapsed target)
    let rest ← relocation.framesFrom (some (position, target)) rest
    return frame.withDelta delta.toUInt16 :: rest

def frames (relocation : Relocation) (frames : List StackFrame) :
    Except BodyError (List StackFrame) :=
  relocation.framesFrom none frames

/-- The ranges that still cover something. -/
def ranges (relocation : Relocation) (ranges : List ExceptionRange) : List ExceptionRange :=
  (ranges.map fun range =>
    { range with
      start := relocation.move range.start
      stop := relocation.move range.stop
      handler := relocation.move range.handler }).filter fun range => range.start < range.stop

/-- The line entries that still have an instruction. -/
def lines (relocation : Relocation) (lines : List LineEntry) : List LineEntry :=
  (lines.map fun line => { line with start := relocation.move line.start }).filter
    fun line => line.start.toNat < relocation.limit

/-- A variable over the instructions of its old range that are left. -/
def moveVariable (relocation : Relocation) (entry : LocalVariable) : LocalVariable :=
  let stop := relocation.map (min (entry.start.toNat + entry.length.toNat) 0xFFFF)
  let start := relocation.map entry.start.toNat
  { entry with start := start.toUInt16, length := (stop - start).toUInt16 }

/-- The variables that are still in scope somewhere. -/
def vars (relocation : Relocation) (vars : List LocalVariable) : List LocalVariable :=
  (vars.map relocation.moveVariable).filter fun entry => 0 < entry.length

/-- A table with its positions moved. -/
def table (relocation : Relocation) (table : CodeTable) : Except BodyError CodeTable :=
  match table with
  | .stackMap frames => return .stackMap (← relocation.frames frames)
  | .lineNumbers lines => .ok (.lineNumbers (relocation.lines lines))
  | .localVariables vars => .ok (.localVariables (relocation.vars vars))
  | other => .ok other

end Relocation

/-- Whether an attribute of a method body can be moved along with its code. -/
def isMovable : Attribute → Bool
  | .table named =>
    match named.table with
    | .stackMap _ | .lineNumbers _ | .localVariables _ => true
    | _ => false
  | _ => false

/-- An attribute with its positions moved. -/
def Relocation.moveAttribute (relocation : Relocation) : Attribute → Except BodyError Attribute
  | .table named => return .table { named with table := ← relocation.table named.table }
  | other => .ok other

namespace CodeBody

/-- Number of attributes that have to be left behind when the code changes. -/
def immovable (body : CodeBody Attribute) : Nat := body.attributes.countP (!isMovable ·)

/-- The body with new code and everything that can be moved along with it. -/
def relocate (body : CodeBody Attribute) (lowered : Lowered) :
    Except BodyError (CodeBody Attribute) := do
  let attributes ← (body.attributes.filter isMovable).mapM lowered.relocation.moveAttribute
  return { body with
    code := lowered.code, ranges := lowered.relocation.ranges body.ranges, attributes }

end CodeBody

end LiteralRecovery
