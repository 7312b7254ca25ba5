import LiteralRecovery.ClassFile.Basic
import LiteralRecovery.Constant.Codec

/-! The grammar of class files, as a recogniser. It wants every byte accounted
for and every attribute known by name, and looks at neither versions nor
indexes nor code. The length of an attribute is read and then ignored: its
contents are measured by their own structure. Attributes and annotation values
nest, each level taking some bytes, so the number of bytes bounds the depth. -/
namespace LiteralRecovery.Grammar

def skip (count : Nat) : Reader Unit := do let _ ← Reader.take count

/-- Items without a value. -/
def repeated (count : Nat) (item : Reader Unit) : Reader Unit := do let _ ← Reader.times count item

/-- A 16-bit count and as many items. -/
def counted (item : Reader Unit) : Reader Unit := do repeated (← Reader.u16).toNat item

/-- A value of an annotation; annotations are values themselves. -/
def elementValue : (depth : Nat) → Reader Unit
  | 0 => failure
  | depth + 1 => do
    let tag ← Reader.u8
    let pair : Reader Unit := do skip 2; elementValue depth
    match Char.ofNat tag.toNat with
    | 'B' | 'C' | 'D' | 'F' | 'I' | 'J' | 'S' | 'Z' | 's' | 'c' => skip 2
    | 'e' => skip 4
    | '@' => skip 2; counted pair
    | '[' => counted (elementValue depth)
    | _ => failure

/-- An annotation: its type, and named values. -/
def annotationEntry (depth : Nat) : Reader Unit := do
  skip 2
  counted do skip 2; elementValue depth

/-- What a type annotation is attached to. -/
def annotationTarget (kind : UInt8) : Reader Unit :=
  match kind.toNat with
  | 0x00 | 0x01 | 0x16 => skip 1
  | 0x10 | 0x11 | 0x12 | 0x17 | 0x42 | 0x43 | 0x44 | 0x45 | 0x46 => skip 2
  | 0x13 | 0x14 | 0x15 => skip 0
  | 0x40 | 0x41 => counted (skip 6)
  | 0x47 | 0x48 | 0x49 | 0x4A | 0x4B => skip 3
  | _ => failure

def typeAnnotationEntry (depth : Nat) : Reader Unit := do
  annotationTarget (← Reader.u8)
  let pathLength ← Reader.u8
  skip (2 * pathLength.toNat)
  annotationEntry depth

def verificationType : Reader Unit := do
  let tag ← Reader.u8
  if tag < 7 then skip 0 else if tag < 9 then skip 2 else failure

def stackFrame : Reader Unit := do
  let kind := (← Reader.u8).toNat
  if kind < 64 then skip 0
  else if kind < 128 then verificationType
  else if kind < 247 then failure
  else if kind = 247 then skip 2; verificationType
  else if kind < 252 then skip 2
  else if kind < 255 then skip 2; repeated (kind - 251) verificationType
  else skip 2; counted verificationType; counted verificationType

/-- The contents of attributes that hold no attributes themselves. -/
def simpleContents (depth : Nat) (title : String) : Option (Reader Unit) :=
  match title with
  | "Synthetic" | "Deprecated" => some (skip 0)
  | "ConstantValue" | "SourceFile" | "Signature" | "NestHost" => some (skip 2)
  | "EnclosingMethod" => some (skip 4)
  | "Exceptions" | "NestMembers" | "PermittedSubclasses" => some (counted (skip 2))
  | "LineNumberTable" => some (counted (skip 4))
  | "InnerClasses" => some (counted (skip 8))
  | "LocalVariableTable" | "LocalVariableTypeTable" => some (counted (skip 10))
  | "MethodParameters" => some do repeated (← Reader.u8).toNat (skip 4)
  | "BootstrapMethods" => some (counted do skip 2; counted (skip 2))
  | "StackMapTable" => some (counted stackFrame)
  | "RuntimeVisibleAnnotations" | "RuntimeInvisibleAnnotations" =>
    some (counted (annotationEntry depth))
  | "RuntimeVisibleParameterAnnotations" =>
    some do repeated (← Reader.u8).toNat (counted (annotationEntry depth))
  | "RuntimeVisibleTypeAnnotations" => some (counted (typeAnnotationEntry depth))
  | "AnnotationDefault" => some (elementValue depth)
  | _ => none

/-- Attributes whose stated length must not reach past the end of the file. -/
def isMeasured (title : String) : Bool :=
  title = "RuntimeVisibleAnnotations" || title = "AnnotationDefault"

/-- An attribute, with the attributes inside it. -/
def attributeInfo (pool : ConstantPool) : (depth : Nat) → Reader Unit
  | 0 => failure
  | depth + 1 => do
    let name ← Reader.u16
    let length ← Reader.u32
    let title ← liftM (pool.utf8 name).toOption
    if isMeasured title then Reader.ahead length.toNat
    match title with
    | "Code" =>
      skip 4
      let length ← Reader.u32
      skip length.toNat
      counted (skip 8)
      counted (attributeInfo pool depth)
    | "Record" => counted do skip 4; counted (attributeInfo pool depth)
    | _ => (simpleContents depth title).getD failure

/-- A field or method. -/
def member (pool : ConstantPool) (depth : Nat) : Reader Unit := do
  skip 6
  counted (attributeInfo pool depth)

/-- The number every class file begins with. -/
def magic : UInt32 := 0xCAFEBABE

def classFile (depth : Nat) : Reader Unit := do
  Reader.require ((← Reader.u32) == magic)
  skip 4
  let pool ← ConstantPool.read
  skip 6
  counted (skip 2)
  counted (member pool depth)
  counted (member pool depth)
  counted (attributeInfo pool depth)

/-- Whether the bytes are a class file and nothing more. -/
def accepts (data : Bytes) : Bool :=
  match classFile data.length data with
  | some ((), rest) => rest.isEmpty
  | none => false

/-- Whether data begins like a class file and is long enough for a header. -/
def looksLikeClass (data : Bytes) : Bool :=
  8 < data.length && data.take 4 == Bytes.ofU32 magic

end LiteralRecovery.Grammar
