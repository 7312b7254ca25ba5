/-! The constant pool of a class file: entries numbered from one, where a long
or double also takes the number after its own. Entries are added at the end
and never move, so an index that was read stays good. -/
namespace LiteralRecovery

/-- A constant pool entry. Floating-point values are kept as their bits. -/
inductive Constant where
  | utf8 (text : String)
  | integer (value : Int32)
  | float (bits : UInt32)
  | long (value : Int64)
  | double (bits : UInt64)
  | classRef (name : UInt16)
  | string (text : UInt16)
  | fieldRef (owner nameAndType : UInt16)
  | methodRef (owner nameAndType : UInt16)
  | interfaceMethodRef (owner nameAndType : UInt16)
  | nameAndType (name descriptor : UInt16)
  | methodHandle (kind : UInt8) (reference : UInt16)
  | methodType (descriptor : UInt16)
  | dynamic (bootstrap nameAndType : UInt16)
  | invokeDynamic (bootstrap nameAndType : UInt16)
  | moduleName (name : UInt16)
  | packageName (name : UInt16)
deriving DecidableEq

namespace Constant

/-- The tag byte that begins the entry in a class file. -/
def tag : Constant → UInt8
  | .utf8 _ => 1
  | .integer _ => 3
  | .float _ => 4
  | .long _ => 5
  | .double _ => 6
  | .classRef _ => 7
  | .string _ => 8
  | .fieldRef _ _ => 9
  | .methodRef _ _ => 10
  | .interfaceMethodRef _ _ => 11
  | .nameAndType _ _ => 12
  | .methodHandle _ _ => 15
  | .methodType _ => 16
  | .dynamic _ _ => 17
  | .invokeDynamic _ _ => 18
  | .moduleName _ => 19
  | .packageName _ => 20

/-- Longs and doubles take two numbers. -/
def isWide : Constant → Bool
  | .long _ | .double _ => true
  | _ => false

end Constant

/-- Why an entry could not be read or added. -/
inductive PoolError where
  /-- Number zero, past the end, or the second number of a long or double. -/
  | noEntry (index : UInt16)
  /-- A text was wanted; `occupied` tells an entry of another kind from none. -/
  | notUtf8 (index : UInt16) (occupied : Bool)
  | notClass (index : UInt16)
  | notFieldRef (index : UInt16)
  | notMethodRef (index : UInt16)
  | notNameAndType (index : UInt16)
  /-- The next number does not fit 16 bits. -/
  | full
deriving DecidableEq

namespace PoolError

def message : PoolError → String
  | .noEntry index => "Invalid constant pool index " ++ toString index.toNat
  | .notUtf8 index occupied =>
    "constant #" ++ toString index.toNat ++ " is not a Utf8 entry: Invalid constant pool index " ++
      (if occupied then "type " else "") ++ toString index.toNat
  | .notClass index => "constant #" ++ toString index.toNat ++ " is not a class"
  | .notFieldRef index => "constant #" ++ toString index.toNat ++ " is not a field reference"
  | .notMethodRef index => "constant #" ++ toString index.toNat ++ " is not a method reference"
  | .notNameAndType index => "constant #" ++ toString index.toNat ++ " is not a name and type"
  | .full => "number too large to fit in target type"

end PoolError

/-- The numbers from zero on; zero and the second number of a wide entry hold
nothing. -/
structure ConstantPool where
  slots : Array (Option Constant)
deriving DecidableEq

namespace ConstantPool

def empty : ConstantPool := ⟨#[none]⟩

/-- One past the highest number in use. -/
def size (pool : ConstantPool) : Nat := pool.slots.size

def get? (pool : ConstantPool) (index : UInt16) : Option Constant :=
  pool.slots[index.toNat]?.join

/-- The entry at `index`. -/
def entry (pool : ConstantPool) (index : UInt16) : Except PoolError Constant :=
  match pool.get? index with
  | some constant => .ok constant
  | none => .error (.noEntry index)

/-- The text at `index`. -/
def utf8 (pool : ConstantPool) (index : UInt16) : Except PoolError String :=
  match pool.get? index with
  | some (.utf8 text) => .ok text
  | some _ => .error (.notUtf8 index true)
  | none => .error (.notUtf8 index false)

/-- The name of the class at `index`. -/
def className (pool : ConstantPool) (index : UInt16) : Except PoolError String := do
  match ← pool.entry index with
  | .classRef name => pool.utf8 name
  | _ => .error (.notClass index)

/-- Puts an entry behind the last one, whatever the number. -/
def place (pool : ConstantPool) (constant : Constant) : ConstantPool :=
  let slots := pool.slots.push (some constant)
  ⟨if constant.isWide then slots.push none else slots⟩

def ofList (constants : List Constant) : ConstantPool := constants.foldl place empty

/-- Adds an entry and gives its number, as long as that fits 16 bits. -/
def append? (pool : ConstantPool) (constant : Constant) : Option (UInt16 × ConstantPool) :=
  if pool.size < 0x10000 then some (pool.size.toUInt16, pool.place constant) else none

/-- The entries in use with their numbers, from `start` on. -/
def entriesFrom (pool : ConstantPool) (start : Nat) : List (Nat × Constant) :=
  (pool.slots.toList.zipIdx.drop start).filterMap fun (slot, index) => slot.map (index, ·)

end ConstantPool

end LiteralRecovery
