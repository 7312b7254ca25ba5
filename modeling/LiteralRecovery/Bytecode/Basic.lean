import LiteralRecovery.Bytecode.Opcode

/-! Decoded instructions of a code array. A branch names the index of the
instruction it goes to; the operands of a switch count instructions from the
switch itself when they come out of a class file. -/
namespace LiteralRecovery

/-- One decoded instruction. -/
inductive Bytecode where
  | plain (op : PlainOp)
  | bipush (value : Int8)
  | sipush (value : Int16)
  | ldc (index : UInt8)
  | pooled (op : PoolOp) (index : UInt16)
  | loadShort (kind : LocalKind) (slot : Fin 4)
  | load (kind : LocalKind) (slot : UInt8)
  | loadWide (kind : LocalKind) (slot : UInt16)
  | storeShort (kind : LocalKind) (slot : Fin 4)
  | store (kind : LocalKind) (slot : UInt8)
  | storeWide (kind : LocalKind) (slot : UInt16)
  | ret (slot : UInt8)
  | retWide (slot : UInt16)
  | iinc (slot : UInt8) (amount : Int8)
  | iincWide (slot : UInt16) (amount : Int16)
  | branch (op : BranchOp) (target : UInt16)
  | branchWide (op : WideBranchOp) (target : Int32)
  | tableswitch (fallback low high : Int32) (targets : List Int32)
  | lookupswitch (fallback : Int32) (cases : List (Int32 × Int32))
  | invokeinterface (index : UInt16) (count : UInt8)
  | invokedynamic (index : UInt16)
  | newarray (element : ArrayElement)
  | multianewarray (index : UInt16) (dimensions : UInt8)
deriving DecidableEq

namespace Bytecode

/-- The mnemonic; instructions behind a `wide` marker end in `_w`. -/
def mnemonic : Bytecode → String
  | .plain op => op.mnemonic
  | .bipush _ => "bipush"
  | .sipush _ => "sipush"
  | .ldc _ => "ldc"
  | .pooled op _ => op.mnemonic
  | .loadShort kind slot => kind.letter ++ "load_" ++ toString slot.val
  | .load kind _ => kind.letter ++ "load"
  | .loadWide kind _ => kind.letter ++ "load_w"
  | .storeShort kind slot => kind.letter ++ "store_" ++ toString slot.val
  | .store kind _ => kind.letter ++ "store"
  | .storeWide kind _ => kind.letter ++ "store_w"
  | .ret _ => "ret"
  | .retWide _ => "ret_w"
  | .iinc _ _ => "iinc"
  | .iincWide _ _ => "iinc_w"
  | .branch op _ => op.mnemonic
  | .branchWide op _ => op.mnemonic
  | .tableswitch _ _ _ _ => "tableswitch"
  | .lookupswitch _ _ => "lookupswitch"
  | .invokeinterface _ _ => "invokeinterface"
  | .invokedynamic _ => "invokedynamic"
  | .newarray _ => "newarray"
  | .multianewarray _ _ => "multianewarray"

/-- The mnemonic as messages show it, with a capital first letter. -/
def title (code : Bytecode) : String := code.mnemonic.capitalize

/-- Operands in parentheses, separated by a comma; nothing if there are none. -/
def renderOperands (operands : List String) : String :=
  if operands.isEmpty then "" else "(" ++ ", ".intercalate operands ++ ")"

/-- An instruction as error messages show it. -/
def render (code : Bytecode) : String :=
  match code with
  | .plain _ | .loadShort _ _ | .storeShort _ _ => code.title
  | .bipush value => code.title ++ renderOperands [toString value.toInt]
  | .sipush value => code.title ++ renderOperands [toString value.toInt]
  | .ldc index => code.title ++ renderOperands [toString index.toNat]
  | .pooled _ index => code.title ++ renderOperands [toString index.toNat]
  | .load _ slot | .store _ slot | .ret slot => code.title ++ renderOperands [toString slot.toNat]
  | .loadWide _ slot | .storeWide _ slot | .retWide slot =>
    code.title ++ renderOperands [toString slot.toNat]
  | .iinc slot amount => code.title ++ renderOperands [toString slot.toNat, toString amount.toInt]
  | .iincWide slot amount =>
    code.title ++ renderOperands [toString slot.toNat, toString amount.toInt]
  | .branch _ target => code.title ++ renderOperands [toString target.toNat]
  | .branchWide _ target => code.title ++ renderOperands [toString target.toInt]
  | .tableswitch fallback low high targets =>
    let offsets := ", ".intercalate (targets.map fun target => toString target.toInt)
    code.title ++ " \x7b default: " ++ toString fallback.toInt ++ ", low: " ++ toString low.toInt ++
      ", high: " ++ toString high.toInt ++ ", offsets: [" ++ offsets ++ "] \x7d"
  | .lookupswitch fallback cases =>
    let pairs := ", ".intercalate (cases.map fun (key, target) =>
      toString key.toInt ++ ": " ++ toString target.toInt)
    code.title ++ " \x7b default: " ++ toString fallback.toInt ++ ", pairs: \x7b" ++ pairs ++
      "\x7d \x7d"
  | .invokeinterface index count =>
    code.title ++ renderOperands [toString index.toNat, toString count.toNat]
  | .invokedynamic index => code.title ++ renderOperands [toString index.toNat]
  | .newarray element => code.title ++ renderOperands [element.name]
  | .multianewarray index dimensions =>
    code.title ++ renderOperands [toString index.toNat, toString dimensions.toNat]

/-- Whether two switches have the same cases; the order in which the keys stand
makes no difference. -/
def sameCases (left right : List (Int32 × Int32)) : Bool :=
  left.length = right.length && left.all fun (key, target) => right.lookup key = some target

/-- Whether two instructions are the same. -/
def same : Bytecode → Bytecode → Bool
  | .lookupswitch fallback cases, .lookupswitch fallback' cases' =>
    fallback = fallback' && sameCases cases cases'
  | left, right => left = right

/-- Whether two code sequences are the same, instruction by instruction. -/
def sameCode (left right : List Bytecode) : Bool :=
  left.length = right.length && (left.zip right).all fun (a, b) => a.same b

end Bytecode

end LiteralRecovery
