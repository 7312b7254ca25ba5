import LiteralRecovery.ClassFile.Basic
import LiteralRecovery.Constant.Index
import LiteralRecovery.Instruction
import LiteralRecovery.Listing.Basic

/-! A class under recovery: names in place of pool numbers, a listing for the
code of each method, and the class file it was read from. -/
namespace LiteralRecovery

structure Field where
  name : String
  descriptor : String
  /-- The declaration as decoded. -/
  info : MemberInfo

namespace Field

def key (field : Field) : MemberKey := ⟨field.name, field.descriptor⟩

end Field

structure Method where
  name : String
  descriptor : String
  /-- Empty for a method without a body. -/
  code : Listing Instruction
  /-- The declaration as decoded; its body still holds the code as it was read,
  and node `i` of the listing started out as instruction `i` of it. -/
  info : MemberInfo

namespace Method

def key (method : Method) : MemberKey := ⟨method.name, method.descriptor⟩

/-- Name and descriptor without anything between them. -/
def signature (method : Method) : String := method.name ++ method.descriptor

end Method

structure Class where
  name : String
  fields : List Field
  methods : List Method
  /-- The file the class was read from. Its members are replaced by `fields` and
  `methods` when the class is written. -/
  file : ClassFile
  /-- The pool numbers the code was seen to use. -/
  index : ValueIndex

namespace Class

def field? (cls : Class) (key : MemberKey) : Option Field := cls.fields.find? (·.key = key)

def method? (cls : Class) (key : MemberKey) : Option Method := cls.methods.find? (·.key = key)

/-- The position of the first static initializer. -/
def initializer? (cls : Class) : Option Nat :=
  cls.methods.findIdx? (·.name = initializerName)

/-- The listing of the method at a position; empty if there is none. -/
def codeAt (cls : Class) (method : Nat) : Listing Instruction :=
  match cls.methods[method]? with
  | some method => method.code
  | none => .empty

/-- Changes the listing of the method at a position. -/
def editCode (cls : Class) (method : Nat) (edit : Listing Instruction → Listing Instruction) :
    Class :=
  { cls with methods := cls.methods.modify method fun m => { m with code := edit m.code } }

/-- All live instructions of all methods. -/
def instructions (cls : Class) : List Instruction := cls.methods.flatMap (·.code.toList)

/-- Number of live instructions of all methods. -/
def weight (cls : Class) : Nat :=
  cls.methods.foldl (fun total method => total + method.code.length) 0

end Class

end LiteralRecovery
