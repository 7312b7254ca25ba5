import LiteralRecovery.Class.Basic
import LiteralRecovery.ClassFile.Decode
import LiteralRecovery.Listing.Lift

/-! From class file to class: names are read off the pool and the code of every
method becomes a listing. All methods share one value index. -/
namespace LiteralRecovery

/-- Why bytes are not a class the recovery can work on. -/
inductive ClassError where
  | malformed
  | undecodable
  | className (cause : PoolError)
  | fieldName (cause : PoolError)
  | fieldDescriptor (cause : PoolError)
  | methodName (cause : PoolError)
  | methodDescriptor (cause : PoolError)
  | code (signature : String) (cause : LiftError)
deriving DecidableEq

namespace ClassError

def message : ClassError → String
  | .malformed => "failed to parse class file bytes: not the structure of a class file"
  | .undecodable => "failed to decode class file: contents without a meaning"
  | .className cause => "resolve class name: " ++ cause.message
  | .fieldName cause => "resolve field name: " ++ cause.message
  | .fieldDescriptor cause => "resolve field descriptor: " ++ cause.message
  | .methodName cause => "resolve method name: " ++ cause.message
  | .methodDescriptor cause => "resolve method descriptor: " ++ cause.message
  | .code signature cause => "decode code of " ++ signature ++ ": " ++ cause.message

end ClassError

namespace Field

def ofInfo (pool : ConstantPool) (info : MemberInfo) : Except ClassError Field :=
  return { name := ← (pool.utf8 info.name).mapError .fieldName
           descriptor := ← (pool.utf8 info.descriptor).mapError .fieldDescriptor
           info }

end Field

namespace Method

/-- The method behind a declaration; without a body its listing is empty. -/
def ofInfo (info : MemberInfo) : ConstantsM ClassError Method := do
  let name ← (Constants.read (·.utf8 info.name)).adapt .methodName
  let descriptor ← (Constants.read (·.utf8 info.descriptor)).adapt .methodDescriptor
  let code ← match info.body? with
    | some body => (liftCode body.code).adapt (.code (name ++ descriptor))
    | none => pure .empty
  return { name, descriptor, code, info }

end Method

namespace Class

/-- The class in a decoded file. -/
def ofFile (file : ClassFile) : Except ClassError Class := do
  let name ← (file.pool.className file.thisClass).mapError .className
  let fields ← file.fields.mapM (Field.ofInfo file.pool)
  let (methods, constants) := (file.methods.mapM Method.ofInfo).run.run (.ofPool file.pool)
  return { name, fields, methods := ← methods, file, index := constants.index }

/-- The class in the bytes of a class file. -/
def decode (data : Bytes) : Except ClassError Class :=
  if Grammar.accepts data then
    match ClassFile.decode? data with
    | some file => ofFile file
    | none => .error .undecodable
  else .error .malformed

end Class

end LiteralRecovery
