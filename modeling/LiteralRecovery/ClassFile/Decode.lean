import LiteralRecovery.ClassFile.Grammar
import LiteralRecovery.ClassFile.StackMap

/-! Decoding of class files that the grammar accepts. Versions, field
descriptors, method handle kinds and the lengths of some attributes are checked
here, and the positions inside code are turned into instruction indexes. Access
flags without a meaning are dropped. -/
namespace LiteralRecovery

namespace Decode

/-- The access flags that mean something for a class, a field, a method and an
inner class. -/
def classFlags : UInt16 := 0xF631
def fieldFlags : UInt16 := 0x50DF
def methodFlags : UInt16 := 0x1DFF
def innerClassFlags : UInt16 := 0x761F

/-- Attributes whose contents have a fixed length. -/
def fixedLength? (title : String) : Option Nat :=
  match title with
  | "Synthetic" | "Deprecated" => some 0
  | "ConstantValue" | "SourceFile" | "Signature" | "NestHost" => some 2
  | "EnclosingMethod" => some 4
  | _ => none

/-- Whether the stated length of an attribute is acceptable where it is looked
at. -/
def checkLength (title : String) (length : Nat) : Reader Unit := do
  if let some expected := fixedLength? title then Reader.require (length == expected)
  if title = "StackMapTable" then Reader.ahead length

/-- Two bytes with the flags outside `mask` cleared. -/
def maskedFlags (mask : UInt16) : Reader Bytes := return Bytes.ofU16 ((← Reader.u16) &&& mask)

/-- The contents of an attribute that is kept as bytes. -/
def plainContents (depth : Nat) (title : String) : Reader Bytes :=
  match title with
  | "InnerClasses" => do
    let classes ← Reader.counted do
      let names ← Reader.take 6
      return names ++ (← maskedFlags innerClassFlags)
    return Bytes.ofU16 classes.length.toUInt16 ++ classes.flatten
  | "MethodParameters" => do
    let count ← Reader.u8
    let parameters ← Reader.times count.toNat do
      let name ← Reader.take 2
      return name ++ (← maskedFlags methodFlags)
    return count :: parameters.flatten
  | _ => Reader.spanned ((Grammar.simpleContents depth title).getD failure)

def lineEntry : Reader LineEntry := return ⟨← Reader.u16, ← Reader.u16⟩

def localVariable : Reader LocalVariable :=
  return ⟨← Reader.u16, ← Reader.u16, ← Reader.u16, ← Reader.u16, ← Reader.u16⟩

/-- The contents of an attribute that holds no others. -/
def table (depth : Nat) (title : String) : Reader CodeTable :=
  match title with
  | "StackMapTable" => return .stackMap (← Reader.counted StackFrame.read)
  | "LineNumberTable" => return .lineNumbers (← Reader.counted lineEntry)
  | "LocalVariableTable" => return .localVariables (← Reader.counted localVariable)
  | "LocalVariableTypeTable" => return .localVariableTypes (← Reader.counted localVariable)
  | _ => return .other title (← plainContents depth title)

/-- An exception range in instruction positions. The end of the code counts as
the last instruction. -/
def rangeToIndexes (layout : CodeLayout) (range : ExceptionRange) : Option ExceptionRange := do
  let start ← layout.index? range.start.toNat
  let stop ← layout.indexUpTo? range.stop.toNat
  let handler ← layout.index? range.handler.toNat
  return { range with start := start.toUInt16, stop := stop.toUInt16, handler := handler.toUInt16 }

/-- A table of a method body in instruction positions. -/
def tableToIndexes (layout : CodeLayout) (table : CodeTable) : Option CodeTable :=
  match table with
  | .stackMap frames => return .stackMap (← StackMap.toIndexes layout none frames)
  | .lineNumbers lines => do
    let lines ← lines.mapM fun line => do
      return { line with start := (← layout.index? line.start.toNat).toUInt16 }
    return .lineNumbers lines
  | other => some other

/-- An attribute of a method body in instruction positions. Code and records
inside it have positions of their own. -/
def attributeToIndexes (layout : CodeLayout) : Attribute → Option Attribute
  | .table named => return .table { named with table := ← tableToIndexes layout named.table }
  | other => some other

def exceptionRange : Reader ExceptionRange :=
  return ⟨← Reader.u16, ← Reader.u16, ← Reader.u16, ← Reader.u16⟩

/-- A method body, given how its attributes are read. -/
def codeBody (inner : Reader Attribute) : Reader (CodeBody Attribute) := do
  let maxStack ← Reader.u16
  let maxLocals ← Reader.u16
  let length ← Reader.u32
  let (code, layout) ← liftM (decodeCode (← Reader.take length.toNat))
  let ranges ← Reader.counted exceptionRange
  let ranges ← liftM (ranges.mapM (rangeToIndexes layout))
  let attributes ← Reader.counted inner
  let attributes ← liftM (attributes.mapM (attributeToIndexes layout))
  return { maxStack, maxLocals, code, ranges, attributes }

/-- A record component, given how its attributes are read. -/
def recordComponent (inner : Reader Attribute) : Reader (RecordComponent Attribute) :=
  return { name := ← Reader.u16, descriptor := ← Reader.u16
           attributes := ← Reader.counted inner }

/-- An attribute, with the attributes inside it. -/
def attributeInfo (pool : ConstantPool) : (depth : Nat) → Reader Attribute
  | 0 => failure
  | depth + 1 => do
    let name ← Reader.u16
    let length ← Reader.u32
    let title ← liftM (pool.utf8 name).toOption
    checkLength title length.toNat
    match title with
    | "Code" => return .code name (← codeBody (attributeInfo pool depth))
    | "Record" =>
      return .record name (← Reader.counted (recordComponent (attributeInfo pool depth)))
    | _ => return .table ⟨name, ← table depth title⟩

/-- Whether a text describes the type of a field. -/
def isFieldType : List Char → Bool
  | '[' :: element => isFieldType element
  | 'L' :: name => 1 < name.length && name.getLast? == some ';'
  | c :: _ => "ZBCDFIJS".toList.contains c
  | [] => false

def member (flags : UInt16) (pool : ConstantPool) (depth : Nat) : Reader MemberInfo :=
  return { access := (← Reader.u16) &&& flags, name := ← Reader.u16, descriptor := ← Reader.u16,
           attributes := ← Reader.counted (attributeInfo pool depth) }

def field (pool : ConstantPool) (depth : Nat) : Reader MemberInfo := do
  let info ← member fieldFlags pool depth
  let descriptor ← liftM (pool.utf8 info.descriptor).toOption
  Reader.require (isFieldType descriptor.toList)
  return info

/-- Versions 45 to 69; from 56 on a minor version is zero, or all ones for a
preview. -/
def isSupported (major minor : UInt16) : Bool :=
  45 ≤ major && major ≤ 69 && (major < 56 || minor == 0 || minor == 0xFFFF)

def classFile (depth : Nat) : Reader ClassFile := do
  let _ ← Reader.u32
  let minor ← Reader.u16
  let major ← Reader.u16
  Reader.require (isSupported major minor)
  Reader.require ((← Reader.peek Reader.u16) != 0)
  let pool ← ConstantPool.read
  Reader.require ((pool.slots.toList.filterMap id).all Constant.isKnown)
  let access := (← Reader.u16) &&& classFlags
  let thisClass ← Reader.u16
  let superClass ← Reader.u16
  let interfaces ← Reader.counted Reader.u16
  let fields ← Reader.counted (field pool depth)
  let methods ← Reader.counted (member methodFlags pool depth)
  let attributes ← Reader.counted (attributeInfo pool depth)
  return { minor, major, pool, access, thisClass, superClass, interfaces, fields, methods,
           attributes }

end Decode

namespace ClassFile

/-- The class file in `data`, which the grammar has accepted. -/
def decode? (data : Bytes) : Option ClassFile := (Decode.classFile data.length data).map (·.1)

end ClassFile

end LiteralRecovery
