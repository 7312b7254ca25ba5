import LiteralRecovery.Bytecode.Layout
import LiteralRecovery.ClassFile.Basic

/-! Stack map frames. A frame stands at a distance from the frame before it: the
first at its delta, every other one past the position right behind its
predecessor. In a file distances count bytes, decoded they count instructions. -/
namespace LiteralRecovery

namespace VerificationType

def read : Reader VerificationType := do
  let tag ← Reader.u8
  match tag.toNat with
  | 0 => return .top
  | 1 => return .int
  | 2 => return .float
  | 3 => return .double
  | 4 => return .long
  | 5 => return .null
  | 6 => return .uninitializedThis
  | 7 => return .object (← Reader.u16)
  | 8 => return .uninitialized (← Reader.u16)
  | _ => failure

def write (type : VerificationType) : Bytes :=
  match type with
  | .object index => type.tag :: Bytes.ofU16 index
  | .uninitialized offset => type.tag :: Bytes.ofU16 offset
  | _ => [type.tag]

end VerificationType

namespace StackFrame

def read : Reader StackFrame := do
  let kind ← Reader.u8
  if kind < 64 then return ⟨.same, kind.toUInt16⟩
  else if kind < 128 then return ⟨.oneItem (← VerificationType.read), kind.toUInt16 - 64⟩
  else if kind < 247 then failure
  else
    let delta ← Reader.u16
    if kind == 247 then return ⟨.oneItemExtended (← VerificationType.read), delta⟩
    else if kind < 251 then return ⟨.chop (251 - kind), delta⟩
    else if kind == 251 then return ⟨.sameExtended, delta⟩
    else if kind < 255 then
      return ⟨.append (← Reader.times (kind.toNat - 251) VerificationType.read), delta⟩
    else
      let locals ← Reader.counted VerificationType.read
      let stack ← Reader.counted VerificationType.read
      return ⟨.full locals stack, delta⟩

/-- The frame as written. The short forms have room for a delta below 256 and
192; whatever it is, it goes into the type byte. -/
def write (frame : StackFrame) : Option Bytes :=
  match frame.shape with
  | .same => if frame.delta.toNat < 256 then some [frame.typeByte] else none
  | .oneItem item =>
    if frame.delta.toNat < 192 then some (frame.typeByte :: item.write) else none
  | .oneItemExtended item => some (frame.typeByte :: Bytes.ofU16 frame.delta ++ item.write)
  | .chop _ | .sameExtended => some (frame.typeByte :: Bytes.ofU16 frame.delta)
  | .append locals =>
    some (frame.typeByte :: Bytes.ofU16 frame.delta ++ locals.flatMap VerificationType.write)
  | .full locals stack => do
    let locals ← Bytes.counted? (locals.map VerificationType.write)
    let stack ← Bytes.counted? (stack.map VerificationType.write)
    return frame.typeByte :: Bytes.ofU16 frame.delta ++ locals ++ stack

end StackFrame

namespace StackMap

/-- The position of a frame, given that of the frame before it. -/
def position (previous : Option Nat) (delta : Nat) : Nat :=
  match previous with
  | none => delta
  | some previous => previous + delta + 1

/-- The frames with distances in instructions. Each has to stand at the start of
an instruction. -/
def toIndexes (layout : CodeLayout) :
    (previous : Option (Nat × Nat)) → List StackFrame → Option (List StackFrame)
  | _, [] => some []
  | previous, frame :: rest => do
    let offset := position (previous.map (·.1)) frame.delta.toNat
    let index ← layout.index? offset
    let delta := match previous with
      | none => index
      | some (_, previousIndex) => index - previousIndex - 1
    let rest ← toIndexes layout (some (offset, index)) rest
    return { frame with delta := delta.toUInt16 } :: rest

/-- The frames with distances in bytes. A frame behind one at offset zero is
written like the first, with its own offset for a distance. -/
def toOffsets (layout : CodeLayout) :
    (previous : Option (Nat × Nat)) → List StackFrame → Option (List StackFrame)
  | _, [] => some []
  | previous, frame :: rest => do
    let index := position (previous.map (·.1)) frame.delta.toNat
    let offset ← layout.offset? index
    let delta := match previous with
      | none | some (_, 0) => offset
      | some (_, previousOffset) => offset - previousOffset - 1
    let rest ← toOffsets layout (some (index, offset)) rest
    return { frame with delta := delta.toUInt16 } :: rest

end StackMap

end LiteralRecovery
