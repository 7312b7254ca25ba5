import LiteralRecovery.ClassFile.Grammar
import LiteralRecovery.ClassFile.StackMap

/-! Encoding of class files: everything in the order it was decoded in, with
true lengths, and with instruction positions turned back into byte offsets. -/
namespace LiteralRecovery.Encode

/-- Contents behind a name and their length. -/
def labelled (name : UInt16) (contents : Bytes) : Bytes :=
  Bytes.ofU16 name ++ Bytes.ofU32 contents.length.toUInt32 ++ contents

def lineEntry (line : LineEntry) : Bytes := Bytes.ofU16 line.start ++ Bytes.ofU16 line.line

def localVariable (entry : LocalVariable) : Bytes :=
  Bytes.ofU16 entry.start ++ Bytes.ofU16 entry.length ++ Bytes.ofU16 entry.name ++
    Bytes.ofU16 entry.descriptor ++ Bytes.ofU16 entry.slot

def tableContents : CodeTable → Option Bytes
  | .stackMap frames => do Bytes.counted? (← frames.mapM StackFrame.write)
  | .lineNumbers lines => Bytes.counted? (lines.map lineEntry)
  | .localVariables vars | .localVariableTypes vars =>
    Bytes.counted? (vars.map localVariable)
  | .other _ content => some content

/-- A table of a method body in byte offsets. -/
def tableToOffsets (layout : CodeLayout) (table : CodeTable) : Option CodeTable :=
  match table with
  | .stackMap frames => return .stackMap (← StackMap.toOffsets layout none frames)
  | .lineNumbers lines => do
    let lines ← lines.mapM fun line => do
      return { line with start := (← layout.offset? line.start.toNat).toUInt16 }
    return .lineNumbers lines
  | other => some other

/-- An exception range in byte offsets. An end past the last instruction becomes
the offset of the last instruction. -/
def exceptionRange (layout : CodeLayout) (range : ExceptionRange) : Option Bytes := do
  let start ← layout.offset? range.start.toNat
  let stop ← layout.offsetUpTo? range.stop.toNat
  let handler ← layout.offset? range.handler.toNat
  return Bytes.ofU16 start.toUInt16 ++ Bytes.ofU16 stop.toUInt16 ++
    Bytes.ofU16 handler.toUInt16 ++ Bytes.ofU16 range.catchType

mutual

/-- An attribute. The tables of a method body count bytes in its `layout`. -/
def attributeInfo (layout : Option CodeLayout) : Attribute → Option Bytes
  | .code name body => return labelled name (← codeBody body)
  | .record name components => do
    return labelled name (← Bytes.counted? (← recordComponents components))
  | .table named => do
    let table ← match layout with
      | some layout => tableToOffsets layout named.table
      | none => some named.table
    return labelled named.name (← tableContents table)

def attributeInfos (layout : Option CodeLayout) : List Attribute → Option (List Bytes)
  | [] => some []
  | first :: rest => return (← attributeInfo layout first) :: (← attributeInfos layout rest)

def codeBody : CodeBody Attribute → Option Bytes
  | ⟨maxStack, maxLocals, code, ranges, attributes⟩ => do
    let (bytes, layout) ← encodeCode code
    let ranges ← ranges.mapM (exceptionRange layout)
    let attributes ← attributeInfos (some layout) attributes
    return Bytes.ofU16 maxStack ++ Bytes.ofU16 maxLocals ++ Bytes.ofU32 bytes.length.toUInt32 ++
      bytes ++ (← Bytes.counted? ranges) ++ (← Bytes.counted? attributes)

def recordComponent : RecordComponent Attribute → Option Bytes
  | ⟨name, descriptor, attributes⟩ => do
    let attributes ← attributeInfos none attributes
    return Bytes.ofU16 name ++ Bytes.ofU16 descriptor ++ (← Bytes.counted? attributes)

def recordComponents : List (RecordComponent Attribute) → Option (List Bytes)
  | [] => some []
  | component :: rest => return (← recordComponent component) :: (← recordComponents rest)

end

def member (info : MemberInfo) : Option Bytes := do
  let attributes ← attributeInfos none info.attributes
  return Bytes.ofU16 info.access ++ Bytes.ofU16 info.name ++ Bytes.ofU16 info.descriptor ++
    (← Bytes.counted? attributes)

/-- The bytes of a class file, if every position has a place and every count
fits. -/
def classFile (file : ClassFile) : Option Bytes := do
  let pool ← file.pool.write
  let fields ← file.fields.mapM member
  let methods ← file.methods.mapM member
  let attributes ← attributeInfos none file.attributes
  return Bytes.ofU32 Grammar.magic ++ Bytes.ofU16 file.minor ++ Bytes.ofU16 file.major ++ pool ++
    Bytes.ofU16 file.access ++ Bytes.ofU16 file.thisClass ++ Bytes.ofU16 file.superClass ++
    (← Bytes.counted? (file.interfaces.map Bytes.ofU16)) ++ (← Bytes.counted? fields) ++
    (← Bytes.counted? methods) ++ (← Bytes.counted? attributes)

end LiteralRecovery.Encode

namespace LiteralRecovery.ClassFile

def encode? (file : ClassFile) : Option Bytes := Encode.classFile file

end LiteralRecovery.ClassFile
