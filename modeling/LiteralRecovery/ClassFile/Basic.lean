import LiteralRecovery.Bytecode.Basic
import LiteralRecovery.Bytes
import LiteralRecovery.Constant.Pool

/-! A decoded class file. Positions inside code count instructions: branch
targets, exception ranges, line numbers and stack map frames. Local variable
tables and the offsets of uninitialized types keep the numbers that stand in
the file. -/
namespace LiteralRecovery

/-- Instructions from `start` up to `stop` are covered by a handler. -/
structure ExceptionRange where
  start : UInt16
  stop : UInt16
  handler : UInt16
  catchType : UInt16
deriving DecidableEq

/-- The type of one local variable or stack entry in a stack map frame. -/
inductive VerificationType where
  | top | int | float | double | long | null | uninitializedThis
  | object (classIndex : UInt16)
  | uninitialized (offset : UInt16)
deriving DecidableEq

namespace VerificationType

def tag : VerificationType → UInt8
  | .top => 0
  | .int => 1
  | .float => 2
  | .double => 3
  | .long => 4
  | .null => 5
  | .uninitializedThis => 6
  | .object _ => 7
  | .uninitialized _ => 8

end VerificationType

/-- What a stack map frame says about locals and stack. The short forms of the
first two kinds carry their delta in the frame's type byte. -/
inductive FrameShape where
  | same
  | sameExtended
  | oneItem (item : VerificationType)
  | oneItemExtended (item : VerificationType)
  | chop (count : UInt8)
  | append (locals : List VerificationType)
  | full (locals stack : List VerificationType)
deriving DecidableEq

/-- A stack map frame; `delta` is its distance from the frame before it. -/
structure StackFrame where
  shape : FrameShape
  delta : UInt16
deriving DecidableEq

namespace StackFrame

/-- The byte that begins the frame. -/
def typeByte (frame : StackFrame) : UInt8 :=
  match frame.shape with
  | .same => frame.delta.toUInt8
  | .oneItem _ => 64 + frame.delta.toUInt8
  | .oneItemExtended _ => 247
  | .chop count => 251 - count
  | .sameExtended => 251
  | .append locals => 251 + locals.length.toUInt8
  | .full _ _ => 255

def locals (frame : StackFrame) : List VerificationType :=
  match frame.shape with
  | .append locals | .full locals _ => locals
  | _ => []

def stack (frame : StackFrame) : List VerificationType :=
  match frame.shape with
  | .oneItem item | .oneItemExtended item => [item]
  | .full _ stack => stack
  | _ => []

end StackFrame

structure LineEntry where
  start : UInt16
  line : UInt16
deriving DecidableEq

/-- A named local variable, or its generic signature. -/
structure LocalVariable where
  start : UInt16
  length : UInt16
  name : UInt16
  descriptor : UInt16
  slot : UInt16
deriving DecidableEq

/-- An attribute that holds no others. Those the recovery does not look into are
kept as the bytes they are written with. -/
inductive CodeTable where
  | stackMap (frames : List StackFrame)
  | lineNumbers (lines : List LineEntry)
  | localVariables (vars : List LocalVariable)
  | localVariableTypes (vars : List LocalVariable)
  | other (title : String) (content : Bytes)
deriving DecidableEq

namespace CodeTable

/-- The attribute's name. -/
def title : CodeTable → String
  | .stackMap _ => "StackMapTable"
  | .lineNumbers _ => "LineNumberTable"
  | .localVariables _ => "LocalVariableTable"
  | .localVariableTypes _ => "LocalVariableTypeTable"
  | .other title _ => title

end CodeTable

/-- A table with the pool number of its name. -/
structure NamedTable where
  name : UInt16
  table : CodeTable
deriving DecidableEq

/-- The body of a method, with attributes of type `α`. -/
structure CodeBody (α : Type) where
  maxStack : UInt16
  maxLocals : UInt16
  code : List Bytecode
  ranges : List ExceptionRange
  attributes : List α

/-- A component of a record class, with attributes of type `α`. -/
structure RecordComponent (α : Type) where
  name : UInt16
  descriptor : UInt16
  attributes : List α

/-- An attribute. Code and records have attributes of their own, of any kind. -/
inductive Attribute where
  | code (name : UInt16) (body : CodeBody Attribute)
  | record (name : UInt16) (components : List (RecordComponent Attribute))
  | table (table : NamedTable)

namespace Attribute

/-- The attribute's name. -/
def title : Attribute → String
  | .code _ _ => "Code"
  | .record _ _ => "Record"
  | .table named => named.table.title

def body? : Attribute → Option (CodeBody Attribute)
  | .code _ body => some body
  | _ => none

end Attribute

/-- A field or method as declared. -/
structure MemberInfo where
  access : UInt16
  name : UInt16
  descriptor : UInt16
  attributes : List Attribute

namespace MemberInfo

/-- The first body among the attributes. -/
def body? (info : MemberInfo) : Option (CodeBody Attribute) :=
  info.attributes.findSome? Attribute.body?

end MemberInfo

structure ClassFile where
  minor : UInt16
  major : UInt16
  pool : ConstantPool
  access : UInt16
  thisClass : UInt16
  superClass : UInt16
  interfaces : List UInt16
  fields : List MemberInfo
  methods : List MemberInfo
  attributes : List Attribute

end LiteralRecovery
