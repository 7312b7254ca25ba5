import LiteralRecovery.Archive.Entry
import LiteralRecovery.Archive.Inflate
import LiteralRecovery.Archive.Member

/-! The zip container: members one after the other, a directory of them, and a
record at the end that says where the directory is. Numbers are little-endian.
The directory is read as a whole before any member, and the checksum of a file
has to fit its data. -/
namespace LiteralRecovery.Zip

def u8At (file : ByteArray) (offset : Nat) : Option Nat :=
  (Inflate.byteAt? file offset).map (·.toNat)

def u16At (file : ByteArray) (offset : Nat) : Option Nat :=
  return (← u8At file offset) + 0x100 * (← u8At file (offset + 1))

def u32At (file : ByteArray) (offset : Nat) : Option Nat :=
  return (← u16At file offset) + 0x10000 * (← u16At file (offset + 2))

/-- `count` bytes from `offset` on. -/
def bytesAt (file : ByteArray) (offset count : Nat) : Option Bytes :=
  if offset + count ≤ file.size then some (file.extract offset (offset + count)).toList else none

def localSignature : Nat := 0x04034B50
def directorySignature : Nat := 0x02014B50
def endSignature : Nat := 0x06054B50

/-- The offset of a member's data, behind the header at `header`. -/
def dataStart? (file : ByteArray) (header : Nat) : Option Nat := do
  guard ((← u32At file header) = localSignature)
  return header + 30 + (← u16At file (header + 26)) + (← u16At file (header + 28))

/-- The directory record at `offset`, and the offset behind it. The archive
proper starts at `base`, and members lie before the directory at `limit`. -/
def memberAt (file : ByteArray) (base limit offset : Nat) : Option (ArchiveMember × Nat) := do
  guard ((← u32At file offset) = directorySignature)
  let flags ← u16At file (offset + 8)
  let nameStart := offset + 46
  let extraStart := nameStart + (← u16At file (offset + 28))
  let commentStart := extraStart + (← u16At file (offset + 30))
  let next := commentStart + (← u16At file (offset + 32))
  let nameBytes ← bytesAt file nameStart (extraStart - nameStart)
  let extra ← bytesAt file extraStart (commentStart - extraStart)
  let comment ← bytesAt file commentStart (next - commentStart)
  let stated : ArchiveMember :=
    { name := ArchiveMember.text flags nameBytes
      nameBytes
      comment := ArchiveMember.text flags comment
      isLocked := flags % 2 = 1
      method := ← u16At file (offset + 10)
      checksum := ← u32At file (offset + 16)
      packedSize := ← u32At file (offset + 20)
      size := ← u32At file (offset + 24)
      permissions :=
        ArchiveMember.permissionsOf (← u8At file (offset + 5)) (← u32At file (offset + 38))
      header := ← u32At file (offset + 42) }
  let member ← stated.withExtra? extra
  guard (member.method ≠ ArchiveMember.lockedMethod)
  let header := base + member.header
  guard (header < limit ∧ (← dataStart? file header) ≤ limit)
  return ({ member with header }, next)

/-- `count` directory records from `offset` on. -/
def membersFrom (file : ByteArray) (base limit : Nat) :
    (count : Nat) → (offset : Nat) → Option (List ArchiveMember)
  | 0, _ => some []
  | count + 1, offset => do
    let (member, next) ← memberAt file base limit offset
    return member :: (← membersFrom file base limit count next)

/-- Puts a member behind the others; a repeated name keeps its place and takes
the new record. -/
def addMember (members : List ArchiveMember) (member : ArchiveMember) : List ArchiveMember :=
  if members.any (·.name = member.name) then
    members.map fun known => if known.name = member.name then member else known
  else members ++ [member]

/-- The first directory record among the `count` bytes from `offset` on. -/
def findRecord (file : ByteArray) : (count : Nat) → (offset : Nat) → Option Nat
  | 0, _ => none
  | count + 1, offset =>
    if 4 ≤ count + 1 && u32At file offset = some directorySignature then some offset
    else findRecord file count (offset + 1)

/-- Where the archive proper starts. What stands in front of it shifts the
directory away from the offset that the end record states, so that the first
directory record found from there on tells. -/
def archiveBase? (file : ByteArray) (record total stated : Nat) : Option Nat :=
  if total = 0 then some (record - stated)
  else (findRecord file (record - stated) stated).map (· - stated)

/-- The directory that the end record at `record` leads to. -/
def directoryAt (file : ByteArray) (record : Nat) : Option (List ArchiveMember) := do
  guard ((← u32At file record) = endSignature)
  guard ((← u16At file (record + 4)) = (← u16At file (record + 6)))
  let stated ← u32At file (record + 16)
  let comment ← u16At file (record + 20)
  guard (record + 22 + comment ≤ file.size)
  let base ← archiveBase? file record (← u16At file (record + 10)) stated
  let start := base + stated
  let members ← membersFrom file base start (← u16At file (record + 8)) start
  return members.foldl addMember []

/-- The directory of an archive: of the end records up to `offset`, the last one
that leads to a directory counts. -/
def directoryUpTo (file : ByteArray) : (offset : Nat) → Option (List ArchiveMember)
  | 0 => directoryAt file 0
  | offset + 1 =>
    match directoryAt file (offset + 1) with
    | some members => some members
    | none => directoryUpTo file offset

/-- What a library makes of data that was packed by one of the methods that are not
told here, given the number of the method; nothing if the data is damaged. -/
abbrev Unpacker := Nat → Bytes → Option Bytes

/-- A library that has none of these methods, so that their data counts as damaged. -/
def noUnpacker : Unpacker := fun _ _ => none

/-- The data of a member, if there is a way to unpack it. Of the known methods two are
told here, and the others are left to a library. -/
def unpack? (others : Unpacker) (method : Nat) (packed : Bytes) : Option (Option Bytes) :=
  match method with
  | 0 => some (some packed)
  | 8 => some (Inflate.inflate? packed)
  | 9 | 12 | 14 | 93 | 95 | 98 => some (others method packed)
  | _ => none

/-- A member as an entry. Only files have their checksum looked at. -/
def entryOf (file : ByteArray) (others : Unpacker) (member : ArchiveMember) :
    Except ArchiveError ArchiveEntry := do
  if member.isLocked then throw .unreadable
  let some start := dataStart? file member.header | throw .unreadable
  let packed := (file.extract start (start + member.packedSize)).toList
  let some unpacked := unpack? others member.method packed | throw .unreadable
  let isDirectory := ArchiveEntry.isDirectoryName member.name
  let entry (data : Bytes) : ArchiveEntry :=
    { name := member.name, isDirectory, stored := member.method = 0
      permissions := member.permissions, data }
  if isDirectory then return entry (unpacked.getD [])
  match unpacked with
  | some data =>
    if (Crc32.checksum data).toNat = member.checksum then return entry data
    else throw (.damagedEntry member.name)
  | none => throw (.damagedEntry member.name)

/-- The entries of an archive, in directory order. -/
def read (data : Bytes) (others : Unpacker := noUnpacker) :
    Except ArchiveError (List ArchiveEntry) := do
  let file : ByteArray := ⟨data.toArray⟩
  match directoryUpTo file (file.size - 22) with
  | some members => members.mapM (entryOf file others)
  | none => throw .unreadable

def le16 (value : Nat) : Bytes := [value.toUInt8, (value / 0x100).toUInt8]

def le32 (value : Nat) : Bytes := le16 (value % 0x10000) ++ le16 (value / 0x10000)

/-- Permission bits of an entry that came without any. -/
def defaultPermissions : Nat := 0o644

/-- What a member's own header and its directory record share. -/
def sharedHeader (entry : ArchiveEntry) (name packed : Bytes) : Bytes :=
  le16 20 ++ le16 0x800 ++ le16 (if entry.stored then 0 else 8) ++ le16 0 ++ le16 0x21 ++
    le32 (Crc32.checksum entry.data).toNat ++ le32 packed.length ++ le32 entry.data.length ++
    le16 name.length ++ le16 0

/-- File type and permission bits as archives keep them. -/
def attributes (entry : ArchiveEntry) : Nat :=
  let permissions := entry.permissions.getD defaultPermissions % 0x200
  if entry.isDirectory then (0o040000 + permissions) * 0x10000 + 0x10
  else (0o100000 + permissions) * 0x10000

/-- A member, and its directory record for an offset. -/
def member (entry : ArchiveEntry) : Bytes × (Nat → Bytes) :=
  let name := entry.name.toUTF8.toList
  let packed := if entry.stored then entry.data else Inflate.deflate entry.data
  let shared := sharedHeader entry name packed
  (le32 localSignature ++ shared ++ name ++ packed, fun offset =>
    le32 directorySignature ++ le16 0x0314 ++ shared ++ le16 0 ++ le16 0 ++ le16 0 ++
      le32 (attributes entry) ++ le32 offset ++ name)

/-- An archive of the entries. -/
def write (entries : List ArchiveEntry) : Bytes :=
  let (members, records, offset) := entries.foldl
    (fun (members, records, offset) entry =>
      let (bytes, record) := member entry
      (bytes :: members, record offset :: records, offset + bytes.length)) ([], [], 0)
  let directory := records.reverse.flatten
  members.reverse.flatten ++ directory ++ le32 endSignature ++ le16 0 ++ le16 0 ++
    le16 entries.length ++ le16 entries.length ++ le32 directory.length ++ le32 offset ++ le16 0

end LiteralRecovery.Zip
