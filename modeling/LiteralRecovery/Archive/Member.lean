import LiteralRecovery.Archive.Crc32
import LiteralRecovery.Text.Utf8

/-! What the directory of a zip archive says about a member. A record may carry
extra fields, each with a kind and a length, that correct what it says itself. -/
namespace LiteralRecovery

/-- A directory record. -/
structure ArchiveMember where
  name : String
  /-- The name as it stands in the record. -/
  nameBytes : Bytes
  comment : String
  /-- Readable only with a password. -/
  isLocked : Bool
  /-- How the data is packed. -/
  method : Nat
  checksum : Nat
  packedSize : Nat
  size : Nat
  permissions : Option Nat
  /-- Offset of the member's own header. -/
  header : Nat

namespace ArchiveMember

/-- The method of a member that leaves it to an extra field to say how the data
is locked and packed. -/
def lockedMethod : Nat := 99

/-- The characters of the upper half of the default encoding. -/
def upperCharacters : Array Char :=
  ("ÇüéâäàåçêëèïîìÄÅÉæÆôöòûùÿÖÜ¢£¥₧ƒáíóúñÑªº¿⌐¬½¼¡«»" ++
   "░▒▓│┤╡╢╖╕╣║╗╝╜╛┐└┴┬├─┼╞╟╚╔╩╦╠═╬╧╨╤╥╙╘╒╓╫╪┘┌█▄▌▐▀" ++
   "αßΓπΣσµτΦΘΩδ∞φε∩≡±≥≤⌠⌡÷≈°∙·√ⁿ²■\u00A0").toList.toArray

def defaultText (bytes : Bytes) : String :=
  String.ofList (bytes.map fun byte =>
    if byte < 0x80 then Char.ofNat byte.toNat
    else upperCharacters.getD (byte.toNat - 0x80) '?')

/-- A name or comment; a flag tells the encoding. -/
def text (flags : Nat) (bytes : Bytes) : String :=
  if flags / 0x800 % 2 = 1 then Utf8.decodeLossy bytes else defaultText bytes

/-- Permission bits: as given, or derived from the attributes of systems that
have none. -/
def permissionsOf (system attributes : Nat) : Option Nat :=
  if attributes = 0 then none
  else if 0x10000 ≤ attributes ∨ system = 3 then some (attributes / 0x10000 % 0x200)
  else if system = 0 then
    let permissions := if attributes / 0x10 % 2 = 1 then 0o775 else 0o664
    some (if attributes % 2 = 1 then permissions &&& 0o555 else permissions)
  else none

/-- Sizes and offsets of 64 bits. Without room for all of them only those are
there that the record marks as too large for it. -/
def readWide (length : Nat) (member : ArchiveMember) : Reader ArchiveMember := do
  let wide (value : Nat) : Reader (Nat × Nat) := do
    if 24 ≤ length || value = 0xFFFFFFFF then return (← Reader.little 8, 8) else return (value, 0)
  let (size, a) ← wide member.size
  let (packedSize, b) ← wide member.packedSize
  let (header, c) ← wide member.header
  Reader.require (a + b + c ≤ length)
  let _ ← Reader.take (length - (a + b + c))
  return { member with size, packedSize, header }

/-- Times in the form of one file system: a reserved number, and a single
attribute with three of them. -/
def skipTimes (length : Nat) : Reader Unit := do
  Reader.require (length = 32)
  let _ ← Reader.take 4
  Reader.require ((← Reader.little 2) = 1)
  Reader.require ((← Reader.little 2) = 24)
  let _ ← Reader.take 24

/-- Times of 32 bits, with flags that say which; a single one needs no flag. -/
def skipStamps (length : Nat) : Reader Unit := do
  let flags := (← Reader.u8).toNat
  let set (count : Nat) : Nat := (List.range count).countP flags.testBit
  Reader.require (length = 5 || length = 1 + 4 * set 8)
  let _ ← Reader.take (if length = 5 then 4 else 4 * set 3)

/-- A text that stands for another one, told by its checksum. -/
def readText (length : Nat) (replaced : Bytes) : Reader Bytes := do
  let _ ← Reader.u8
  let checksum ← Reader.little 4
  Reader.require (5 ≤ length && checksum = (Crc32.checksum replaced).toNat)
  let content ← Reader.take (length - 5)
  Reader.require (Utf8.standardOnto [] content).isSome
  return content

/-- How the data is locked, and the method that it is packed with. -/
def readLock (length : Nat) (member : ArchiveMember) : Reader ArchiveMember := do
  Reader.require (length = 7)
  let version ← Reader.little 2
  let vendor ← Reader.little 2
  let strength ← Reader.little 1
  Reader.require (vendor = 0x4541 && 1 ≤ version && version ≤ 2 && 1 ≤ strength && strength ≤ 3)
  return { member with isLocked := true, method := ← Reader.little 2 }

/-- The member as an extra field corrects it. -/
def readExtra (member : ArchiveMember) : Reader ArchiveMember := do
  let kind ← Reader.little 2
  let length ← Reader.little 2
  match kind with
  | 0x0001 => member.readWide length
  | 0x000A => skipTimes length; return member
  | 0x5455 => skipStamps length; return member
  | 0x6375 =>
    let comment ← readText length member.comment.toUTF8.toList
    return { member with comment := Utf8.decodeLossy comment }
  | 0x7075 =>
    let nameBytes ← readText length member.nameBytes
    return { member with nameBytes, name := Utf8.decodeLossy nameBytes }
  | 0x9901 => member.readLock length
  | _ =>
    let _ ← Reader.take length
    return member

/-- The member as all extra fields correct it, one after the other. Every field
takes bytes, so `steps` may be their number. -/
def readExtras : (steps : Nat) → ArchiveMember → Reader ArchiveMember
  | 0, member => return member
  | steps + 1, member => do
    if (← get).isEmpty then return member else readExtras steps (← member.readExtra)

/-- The member with the extra fields of its record, which have to be in order. -/
def withExtra? (member : ArchiveMember) (extra : Bytes) : Option ArchiveMember :=
  ((readExtras extra.length member).run extra).map (·.1)

end ArchiveMember

end LiteralRecovery
