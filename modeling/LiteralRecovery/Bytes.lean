/-! Reading and writing of binary data, big-endian unless said otherwise. A
reader takes what it needs from the front and hands back the rest, or refuses. -/
namespace LiteralRecovery

/-- Raw file contents. -/
abbrev Bytes := List UInt8

/-- A step reader. -/
abbrev Reader := StateT Bytes Option

namespace Reader

def u8 : Reader UInt8
  | [] => none
  | byte :: rest => some (byte, rest)

def u16 : Reader UInt16
  | a :: b :: rest => some ((a.toNat * 0x100 + b.toNat).toUInt16, rest)
  | _ => none

def u32 : Reader UInt32
  | a :: b :: c :: d :: rest =>
    some ((((a.toNat * 0x100 + b.toNat) * 0x100 + c.toNat) * 0x100 + d.toNat).toUInt32, rest)
  | _ => none

def i8 : Reader Int8 := return (← u8).toInt8

def i16 : Reader Int16 := return (← u16).toInt16

def i32 : Reader Int32 := return (← u32).toInt32

def u64 : Reader UInt64 := do
  let high ← u32
  let low ← u32
  return high.toUInt64 <<< 32 ||| low.toUInt64

/-- A number of `count` bytes, the lowest first. -/
def little : (count : Nat) → Reader Nat
  | 0 => return 0
  | count + 1 => do
    let low ← u8
    return low.toNat + 0x100 * (← little count)

/-- The next `count` bytes. -/
def take (count : Nat) : Reader Bytes := fun bytes =>
  let (taken, rest) := bytes.splitAt count
  if taken.length = count then some (taken, rest) else none

/-- What a reader finds, without taking anything. -/
def peek (reader : Reader α) : Reader α := fun bytes =>
  match reader bytes with
  | some (result, _) => some (result, bytes)
  | none => none

/-- Refuses unless `condition` holds. -/
def require (condition : Bool) : Reader Unit := fun bytes =>
  if condition then some ((), bytes) else none

/-- Refuses unless `count` more bytes are there, and takes none. -/
def ahead (count : Nat) : Reader Unit := fun bytes =>
  if count ≤ bytes.length then some ((), bytes) else none

/-- Runs a reader `count` times, adding the results in front of `done`. -/
def timesOnto (reader : Reader α) : (count : Nat) → (done : List α) → Reader (List α)
  | 0, done, bytes => some (done.reverse, bytes)
  | count + 1, done, bytes =>
    match reader bytes with
    | some (result, rest) => timesOnto reader count (result :: done) rest
    | none => none

/-- Runs a reader `count` times. -/
def times (count : Nat) (reader : Reader α) : Reader (List α) := timesOnto reader count []

/-- A 16-bit count, then as many items. -/
def counted (reader : Reader α) : Reader (List α) := do times (← u16).toNat reader

/-- The bytes that a reader takes. -/
def spanned (reader : Reader α) : Reader Bytes := fun bytes =>
  match reader bytes with
  | some (_, rest) => some (bytes.take (bytes.length - rest.length), rest)
  | none => none

end Reader

namespace Bytes

def ofU16 (value : UInt16) : Bytes := [(value.toNat / 0x100).toUInt8, value.toUInt8]

def ofU32 (value : UInt32) : Bytes :=
  [(value.toNat / 0x1000000).toUInt8, (value.toNat / 0x10000).toUInt8,
   (value.toNat / 0x100).toUInt8, value.toUInt8]

def ofU64 (value : UInt64) : Bytes :=
  ofU32 (value >>> 32).toUInt32 ++ ofU32 value.toUInt32

def ofI16 (value : Int16) : Bytes := ofU16 value.toUInt16

def ofI32 (value : Int32) : Bytes := ofU32 value.toUInt32

/-- A 16-bit count, if it fits, and the items behind it. -/
def counted? (items : List Bytes) : Option Bytes :=
  if items.length < 0x10000 then some (ofU16 items.length.toUInt16 ++ items.flatten) else none

end Bytes

end LiteralRecovery
