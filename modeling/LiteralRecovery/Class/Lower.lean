import LiteralRecovery.Class.Basic
import LiteralRecovery.Class.Relocate
import LiteralRecovery.ClassFile.Encode
import LiteralRecovery.Recovery.Event

/-! From class to class file: the listing of every method takes the place of its
code, and what the listings need is added to the pool. The bytes are checked
against the grammar once more. -/
namespace LiteralRecovery

/-- Why a class could not be written. -/
inductive EncodeError where
  | method (signature : String) (cause : BodyError)
  | unserializable
  | invalid
deriving DecidableEq

namespace EncodeError

def message : EncodeError → String
  | .method signature cause => "encode method " ++ signature ++ ": " ++ cause.message
  | .unserializable => "failed to serialize class file: contents without a written form"
  | .invalid => "re-encoded class failed validation: not the structure of a class file"

end EncodeError

/-- Constants and log of a class being written. -/
structure Writing where
  constants : Constants
  events : Array Event

/-- An action on a class being written. -/
abbrev WritingM (ε : Type) := ExceptT ε (StateM Writing)

namespace Writing

def onConstants (action : ConstantsM ε α) : WritingM ε α := fun writing =>
  let (result, constants) := action writing.constants
  (result, { writing with constants })

def log (event : Event) : WritingM ε Unit :=
  modify fun writing => { writing with events := writing.events.push event }

end Writing

namespace CodeBody

/-- The body with the code of a listing. Code that comes out as it was leaves
the body untouched. -/
def withListing (body : CodeBody Attribute) (list : Listing Instruction) :
    WritingM BodyError (CodeBody Attribute) := do
  let lowered ← Writing.onConstants ((lowerCode list body.code.length).adapt .code)
  if Bytecode.sameCode lowered.code body.code then return body
  if 0 < body.immovable then Writing.log (.attributesDropped body.immovable)
  liftM (body.relocate lowered)

end CodeBody

namespace Method

/-- Attributes with the code of a listing in the first body. -/
def withListing (list : Listing Instruction) :
    List Attribute → WritingM BodyError (List Attribute)
  | [] => return []
  | .code name body :: rest => return .code name (← body.withListing list) :: rest
  | other :: rest => return other :: (← withListing list rest)

/-- The declaration of a method with the code of its listing. -/
def toInfo (method : Method) : WritingM EncodeError MemberInfo := do
  let attributes ← (withListing method.code method.info.attributes).adapt
    (.method method.signature)
  return { method.info with attributes }

end Method

namespace Class

/-- The class file of a class. -/
def toFile (cls : Class) : WritingM EncodeError ClassFile := do
  let methods ← cls.methods.mapM Method.toInfo
  let pool := (← get).constants.pool
  return { cls.file with pool, fields := cls.fields.map (·.info), methods }

/-- The bytes of a class file that the grammar accepts. -/
def serialize (file : ClassFile) : Except EncodeError Bytes :=
  match file.encode? with
  | some bytes => if Grammar.accepts bytes then .ok bytes else .error .invalid
  | none => .error .unserializable

/-- The bytes of a class, with what there was to log. -/
def encode (cls : Class) : Except EncodeError Bytes × Array Event :=
  let start : Writing := { constants := ⟨cls.file.pool, cls.index⟩, events := #[] }
  let (file, writing) := cls.toFile.run.run start
  (file >>= serialize, writing.events)

end Class

end LiteralRecovery
