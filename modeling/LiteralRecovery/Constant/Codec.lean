import LiteralRecovery.Bytes
import LiteralRecovery.Constant.Pool
import LiteralRecovery.Text.Utf8

/-! The constant pool as it stands in a class file. -/
namespace LiteralRecovery

namespace Constant

/-- The contents of an entry with the given tag. -/
def readTagged (tag : UInt8) : Reader Constant :=
  match tag.toNat with
  | 1 => do
    let length ← Reader.u16
    let bytes ← Reader.take length.toNat
    return .utf8 (← liftM (Utf8.decode? bytes))
  | 3 => return .integer (← Reader.i32)
  | 4 => return .float (← Reader.u32)
  | 5 => return .long (← Reader.u64).toInt64
  | 6 => return .double (← Reader.u64)
  | 7 => return .classRef (← Reader.u16)
  | 8 => return .string (← Reader.u16)
  | 9 => return .fieldRef (← Reader.u16) (← Reader.u16)
  | 10 => return .methodRef (← Reader.u16) (← Reader.u16)
  | 11 => return .interfaceMethodRef (← Reader.u16) (← Reader.u16)
  | 12 => return .nameAndType (← Reader.u16) (← Reader.u16)
  | 15 => return .methodHandle (← Reader.u8) (← Reader.u16)
  | 16 => return .methodType (← Reader.u16)
  | 17 => return .dynamic (← Reader.u16) (← Reader.u16)
  | 18 => return .invokeDynamic (← Reader.u16) (← Reader.u16)
  | 19 => return .moduleName (← Reader.u16)
  | 20 => return .packageName (← Reader.u16)
  | _ => failure

def read : Reader Constant := do readTagged (← Reader.u8)

/-- The contents of an entry. A text of more than 65535 bytes has none. -/
def writeContents : Constant → Option Bytes
  | .utf8 text =>
    let bytes := Utf8.encode text
    if bytes.length < 0x10000 then some (Bytes.ofU16 bytes.length.toUInt16 ++ bytes) else none
  | .integer value => some (Bytes.ofI32 value)
  | .float bits => some (Bytes.ofU32 bits)
  | .long value => some (Bytes.ofU64 value.toUInt64)
  | .double bits => some (Bytes.ofU64 bits)
  | .classRef index | .string index | .methodType index | .moduleName index
  | .packageName index => some (Bytes.ofU16 index)
  | .fieldRef a b | .methodRef a b | .interfaceMethodRef a b | .nameAndType a b
  | .dynamic a b | .invokeDynamic a b => some (Bytes.ofU16 a ++ Bytes.ofU16 b)
  | .methodHandle kind reference => some (kind :: Bytes.ofU16 reference)

def write (constant : Constant) : Option Bytes :=
  constant.writeContents.map (constant.tag :: ·)

/-- Whether a decoder knows the entry: the kinds of a method handle are numbered
from one to nine. -/
def isKnown : Constant → Bool
  | .methodHandle kind _ => 1 ≤ kind && kind ≤ 9
  | _ => true

end Constant

namespace ConstantPool

/-- Reads entries until the numbers below `count` are taken, `steps` of them at
most. -/
def readUpTo (count : Nat) : (steps : Nat) → ConstantPool → Reader ConstantPool
  | 0, pool, bytes => some (pool, bytes)
  | steps + 1, pool, bytes =>
    if count ≤ pool.size then some (pool, bytes)
    else
      match Constant.read bytes with
      | some (constant, rest) => readUpTo count steps (pool.place constant) rest
      | none => none

def read : Reader ConstantPool := do
  let count ← Reader.u16
  readUpTo count.toNat count.toNat .empty

/-- The pool as written. The count of numbers has to fit 16 bits. -/
def write (pool : ConstantPool) : Option Bytes := do
  let entries ← (pool.slots.toList.filterMap id).mapM Constant.write
  if pool.size < 0x10000 then some (Bytes.ofU16 pool.size.toUInt16 ++ entries.flatten) else none

end ConstantPool

end LiteralRecovery
