import LiteralRecovery.Bytecode.Basic
import LiteralRecovery.Member
import LiteralRecovery.Text.Utf16

/-! Instructions as the recovery passes see them. Constants carry their value
and references their names, so that no pass has to look at the constant pool;
everything else is carried along unread. -/
namespace LiteralRecovery

/-- Width of a bitwise operation. -/
inductive Width where
  | int | long
deriving DecidableEq

inductive BitwiseOp where
  | and | or | xor
deriving DecidableEq

namespace BitwiseOp

def onInt : BitwiseOp → Int32 → Int32 → Int32
  | .and, left, right => left &&& right
  | .or, left, right => left ||| right
  | .xor, left, right => left ^^^ right

def onLong : BitwiseOp → Int64 → Int64 → Int64
  | .and, left, right => left &&& right
  | .or, left, right => left ||| right
  | .xor, left, right => left ^^^ right

end BitwiseOp

/-- Element family of the array loads and stores the passes follow. -/
inductive ElementKind where
  | int | long | reference
deriving DecidableEq

/-- What an array allocation creates. -/
inductive ArrayKind where
  | int | long
  | reference (element : String)
deriving DecidableEq

/-- One instruction of a listing. The targets of a jump are node ids, in the
order of the operands of its bytecode. -/
inductive Instruction where
  | intConst (value : Int32)
  | longConst (value : Int64)
  | stringConst (value : UnitString)
  | nullConst
  | bitwise (width : Width) (op : BitwiseOp)
  | getStatic (field : MemberRef)
  | putStatic (field : MemberRef)
  | newArray (kind : ArrayKind)
  | arrayLoad (kind : ElementKind)
  | arrayStore (kind : ElementKind)
  | invokeStatic (target : MemberRef) (onInterface : Bool)
  | plain (code : Bytecode)
  | jump (code : Bytecode) (targets : List Nat)
deriving DecidableEq

namespace Instruction

def int? : Instruction → Option Int32
  | .intConst value => some value
  | _ => none

def long? : Instruction → Option Int64
  | .longConst value => some value
  | _ => none

def string? : Instruction → Option UnitString
  | .stringConst value => some value
  | _ => none

/-- The value a table slot reads as when nothing was stored into it. -/
def zero : ElementKind → Instruction
  | .int => .intConst 0
  | .long => .longConst 0
  | .reference => .nullConst

/-- A recovered constant as log lines show it. -/
def renderConstant : Instruction → String
  | .intConst value => "IntConst(" ++ toString value.toInt ++ ")"
  | .longConst value => "LongConst(" ++ toString value.toInt ++ ")"
  | .stringConst value =>
    "StringConst(JavaString([" ++
      ", ".intercalate (value.units.map fun unit => toString unit.toNat) ++ "]))"
  | _ => "NullConst"

end Instruction

end LiteralRecovery
