import LiteralRecovery.Constant.Pool
import LiteralRecovery.Member

/-! Constants by value. Every entry that is read is noted under its value, so
that writing the value back finds the entry it came from; a value that has no
entry yet gets one at the end of the pool, once. -/
namespace LiteralRecovery

/-- What a constant says, free of pool numbers. -/
inductive ConstantKey where
  | integer (value : Int32)
  | long (value : Int64)
  | string (text : String)
  | classRef (name : String)
  | field (member : MemberRef)
  | method (member : MemberRef)
  | interfaceMethod (member : MemberRef)
deriving DecidableEq

/-- The number noted for each value. -/
structure ValueIndex where
  entries : List (ConstantKey × UInt16)
deriving DecidableEq

namespace ValueIndex

def empty : ValueIndex := ⟨[]⟩

def lookup (index : ValueIndex) (key : ConstantKey) : Option UInt16 := index.entries.lookup key

/-- Notes where a value lives; the first note stands. -/
def note (index : ValueIndex) (key : ConstantKey) (number : UInt16) : ValueIndex :=
  match index.lookup key with
  | some _ => index
  | none => ⟨(key, number) :: index.entries⟩

end ValueIndex

/-- A pool together with what is known of its values. -/
structure Constants where
  pool : ConstantPool
  index : ValueIndex
deriving DecidableEq

/-- An action on constants. What it did before it failed stays done. -/
abbrev ConstantsM (ε : Type) := ExceptT ε (StateM Constants)

namespace Constants

def ofPool (pool : ConstantPool) : Constants := ⟨pool, .empty⟩

/-- Reads something off the pool. -/
def read (reader : ConstantPool → Except PoolError α) : ConstantsM PoolError α :=
  fun constants => (reader constants.pool, constants)

def note (key : ConstantKey) (number : UInt16) : ConstantsM PoolError Unit :=
  modify fun constants => { constants with index := constants.index.note key number }

/-- Adds an entry to the pool. -/
def append (constant : Constant) : ConstantsM PoolError UInt16 := do
  match (← get).pool.append? constant with
  | some (number, pool) =>
    modify fun constants => { constants with pool }
    return number
  | none => throw .full

/-- The member that a reference entry describes. -/
def memberRef (owner nameAndType : UInt16) (pool : ConstantPool) : Except PoolError MemberRef := do
  let ownerName ← pool.className owner
  match ← pool.entry nameAndType with
  | .nameAndType name descriptor =>
    return ⟨ownerName, ← pool.utf8 name, ← pool.utf8 descriptor⟩
  | _ => .error (.notNameAndType nameAndType)

/-- The integer, long or string that an instruction loads from `number`;
nothing for any other kind of constant. -/
def loadable (number : UInt16) : ConstantsM PoolError (Option ConstantKey) := do
  let key? ← match ← read (·.entry number) with
    | .integer value => pure (some (ConstantKey.integer value))
    | .long value => pure (some (ConstantKey.long value))
    | .string text => do
      let text ← read (·.utf8 text)
      pure (some (ConstantKey.string text))
    | _ => pure none
  if let some key := key? then note key number
  return key?

def classRef (number : UInt16) : ConstantsM PoolError String := do
  let name ← read (·.className number)
  note (.classRef name) number
  return name

def fieldRef (number : UInt16) : ConstantsM PoolError MemberRef := do
  match ← read (·.entry number) with
  | .fieldRef owner nameAndType =>
    let member ← read (memberRef owner nameAndType)
    note (.field member) number
    return member
  | _ => throw (.notFieldRef number)

/-- The method at `number`, and whether it belongs to an interface. -/
def methodRef (number : UInt16) : ConstantsM PoolError (MemberRef × Bool) := do
  match ← read (·.entry number) with
  | .methodRef owner nameAndType =>
    let member ← read (memberRef owner nameAndType)
    note (.method member) number
    return (member, false)
  | .interfaceMethodRef owner nameAndType =>
    let member ← read (memberRef owner nameAndType)
    note (.interfaceMethod member) number
    return (member, true)
  | _ => throw (.notMethodRef number)

/-- Adds the entries of a name and type. -/
def appendNameAndType (member : MemberRef) : ConstantsM PoolError UInt16 := do
  let name ← append (.utf8 member.name)
  let descriptor ← append (.utf8 member.descriptor)
  append (.nameAndType name descriptor)

/-- The number of a value, from `add` if none is noted yet. -/
def noted (key : ConstantKey) (add : ConstantsM PoolError UInt16) :
    ConstantsM PoolError UInt16 := do
  match (← get).index.lookup key with
  | some number => return number
  | none =>
    let number ← add
    note key number
    return number

def internClass (name : String) : ConstantsM PoolError UInt16 :=
  noted (.classRef name) do append (.classRef (← append (.utf8 name)))

/-- The number of a value, which is added to the pool if it is not known. A
member's owner is looked up first. -/
def intern (key : ConstantKey) : ConstantsM PoolError UInt16 :=
  match key with
  | .integer value => noted key (append (.integer value))
  | .long value => noted key (append (.long value))
  | .string text => noted key do append (.string (← append (.utf8 text)))
  | .classRef name => internClass name
  | .field member => noted key do
    let owner ← internClass member.owner
    append (.fieldRef owner (← appendNameAndType member))
  | .method member => noted key do
    let owner ← internClass member.owner
    append (.methodRef owner (← appendNameAndType member))
  | .interfaceMethod member => noted key do
    let owner ← internClass member.owner
    append (.interfaceMethodRef owner (← appendNameAndType member))

end Constants

end LiteralRecovery
