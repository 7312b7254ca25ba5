import LiteralRecovery.Archive.Zip
import LiteralRecovery.Proofs.PlainBlocks
import LiteralRecovery.Proofs.Utf8Text
import Mathlib.Data.List.Nodup
import Mathlib.Data.Option.Basic

/-! Archives that are written and read again. Everything that is read off an archive is
told by the bytes that stand at an offset, and these follow from the order in which the
parts were written. So an archive is read as the entries it was written for, and what was
read fits to be written. -/
namespace LiteralRecovery.Zip

open Inflate (fileOf)

variable {data first second : Bytes} {offset value : Nat} {byte : UInt8} {rest : Bytes}

/-! ### What stands at an offset -/

/-- Bytes that stand in a file from an offset on. -/
def StandsAt (data : Bytes) (offset : Nat) (bytes : Bytes) : Prop :=
  ∃ front back, data = front ++ (bytes ++ back) ∧ front.length = offset

theorem standsAt_append : StandsAt data offset (first ++ second) ↔
    StandsAt data offset first ∧ StandsAt data (offset + first.length) second := by
  constructor
  · rintro ⟨front, back, rfl, rfl⟩
    exact ⟨⟨front, second ++ back, by rw [List.append_assoc], rfl⟩,
      front ++ first, back, by simp, List.length_append⟩
  · rintro ⟨⟨front, back, rfl, rfl⟩, front', back', same, length⟩
    rw [← List.append_assoc] at same
    obtain ⟨rfl, rfl⟩ := List.append_inj same (by rw [List.length_append, length])
    exact ⟨front, back', by simp, rfl⟩

@[simp] theorem length_le16 (value : Nat) : (le16 value).length = 2 := rfl

@[simp] theorem length_le32 (value : Nat) : (le32 value).length = 4 := rfl

theorem u8At_of_stands (stands : StandsAt data offset (byte :: rest)) :
    u8At (fileOf data) offset = some byte.toNat := by
  obtain ⟨front, back, rfl, rfl⟩ := stands
  rw [u8At, ← Nat.add_zero front.length, Inflate.byteAt?_behind]
  rfl

theorem u8At_of_le16 (stands : StandsAt data offset (le16 value)) :
    u8At (fileOf data) offset = some (value % 0x100) ∧
      u8At (fileOf data) (offset + 1) = some (value / 0x100 % 0x100) := by
  have parts : StandsAt data offset [value.toUInt8] ∧
      StandsAt data (offset + 1) [(value / 0x100).toUInt8] := standsAt_append.mp stands
  exact ⟨u8At_of_stands parts.1, u8At_of_stands parts.2⟩

theorem u16At_of_stands (stands : StandsAt data offset (le16 value)) (small : value < 0x10000) :
    u16At (fileOf data) offset = some value := by
  obtain ⟨low, high⟩ := u8At_of_le16 stands
  have number : value % 0x100 + 0x100 * (value / 0x100 % 0x100) = value := by omega
  rw [u16At, low, high]
  exact congrArg some number

theorem u32At_of_stands (stands : StandsAt data offset (le32 value)) (small : value < 0x100000000) :
    u32At (fileOf data) offset = some value := by
  have parts : StandsAt data offset (le16 (value % 0x10000)) ∧
      StandsAt data (offset + 2) (le16 (value / 0x10000)) := standsAt_append.mp stands
  have number : value % 0x10000 + 0x10000 * (value / 0x10000) = value := by omega
  rw [u32At, u16At_of_stands parts.1 (by omega), u16At_of_stands parts.2 (by omega)]
  exact congrArg some number

theorem extract_of_stands (stands : StandsAt data offset first) :
    ((fileOf data).extract offset (offset + first.length)).toList = first := by
  obtain ⟨front, back, rfl, rfl⟩ := stands
  rw [Inflate.extract_fileOf, Inflate.toList_fileOf]

theorem StandsAt.behind (stands : StandsAt data offset first) :
    StandsAt data (offset + first.length) [] := by
  rw [← List.append_nil first] at stands
  exact (standsAt_append.mp stands).2

theorem StandsAt.le_length (stands : StandsAt data offset first) :
    offset + first.length ≤ data.length := by
  obtain ⟨front, back, rfl, rfl⟩ := stands
  simp

theorem bytesAt_of_stands (stands : StandsAt data offset first) :
    bytesAt (fileOf data) offset first.length = some first := by
  rw [bytesAt, if_pos (by simpa using stands.le_length), extract_of_stands stands]

/-! ### One member -/

/-- The name of an entry as it is written. -/
def title (entry : ArchiveEntry) : Bytes := entry.name.toUTF8.toList

/-- The data of an entry as it is written. -/
def packed (entry : ArchiveEntry) : Bytes :=
  if entry.stored then entry.data else Inflate.deflate entry.data

/-- The permission bits of an entry in an archive. -/
def bitsOf (entry : ArchiveEntry) : Nat := entry.permissions.getD defaultPermissions % 0x200

/-- What the directory says about an entry whose own header is at an offset. -/
def stated (entry : ArchiveEntry) (offset : Nat) : ArchiveMember where
  name := entry.name
  nameBytes := title entry
  comment := ""
  isLocked := false
  method := if entry.stored then 0 else 8
  checksum := (Crc32.checksum entry.data).toNat
  packedSize := (packed entry).length
  size := entry.data.length
  permissions := some (bitsOf entry)
  header := offset

variable {entry : ArchiveEntry} {header : Nat}

theorem dataStart?_of_stands (stands : StandsAt data header (member entry).1)
    (short : (title entry).length < 0x10000) :
    dataStart? (fileOf data) header = some (header + 30 + (title entry).length) := by
  simp only [member, sharedHeader, List.append_assoc, standsAt_append, length_le16, length_le32,
    Nat.add_assoc, Nat.reduceAdd] at stands
  obtain ⟨signature, -, -, -, -, -, -, -, -, name, extra, -⟩ := stands
  have marked := u32At_of_stands signature (by decide)
  have named : u16At (fileOf data) (header + 26) = some (title entry).length :=
    u16At_of_stands name short
  have bare := u16At_of_stands extra (by decide)
  simp [dataStart?, marked, named, bare]

/-- The data of a member stands at its end. -/
theorem member_eq (entry : ArchiveEntry) : ∃ front,
    (member entry).1 = front ++ packed entry ∧ front.length = 30 + (title entry).length := by
  refine ⟨_, rfl, ?_⟩
  simp only [sharedHeader, List.length_append, length_le16, length_le32]
  rfl

theorem length_member (entry : ArchiveEntry) :
    (member entry).1.length = 30 + (title entry).length + (packed entry).length := by
  obtain ⟨front, same, length⟩ := member_eq entry
  rw [same, List.length_append, length]

theorem attributes_eq (entry : ArchiveEntry) :
    ∃ kind low, attributes entry = (kind * 0x200 + bitsOf entry) * 0x10000 + low ∧
      0 < kind ∧ kind < 0x80 ∧ low < 0x10000 := by
  unfold attributes
  cases entry.isDirectory with
  | true => exact ⟨0x20, 0x10, by simp [bitsOf], by decide⟩
  | false => exact ⟨0x40, 0, by simp [bitsOf], by decide⟩

theorem permissionsOf_attributes (entry : ArchiveEntry) :
    ArchiveMember.permissionsOf 3 (attributes entry) = some (bitsOf entry) := by
  obtain ⟨kind, low, same, some, -, small⟩ := attributes_eq entry
  have bits : bitsOf entry < 0x200 := Nat.mod_lt _ (by decide)
  rw [ArchiveMember.permissionsOf, if_neg (by omega), if_pos (Or.inr rfl), same]
  congr 1
  omega

theorem attributes_lt (entry : ArchiveEntry) : attributes entry < 0x100000000 := by
  obtain ⟨kind, low, same, -, few, small⟩ := attributes_eq entry
  have bits : bitsOf entry < 0x200 := Nat.mod_lt _ (by decide)
  omega

theorem withExtra?_nil (member : ArchiveMember) : member.withExtra? [] = some member := rfl

theorem text_title (entry : ArchiveEntry) : ArchiveMember.text 0x800 (title entry) = entry.name :=
  Utf8.decodeLossy_toUTF8 entry.name

theorem text_nil : ArchiveMember.text 0x800 [] = "" := by
  simp [ArchiveMember.text, Utf8.decodeLossy, Utf8.lossyOnto]

/-- A directory record says what it should if its numbers fit and the member it is for
stands where it says. -/
theorem memberAt_of_stands {limit place : Nat}
    (stands : StandsAt data place ((member entry).2 header))
    (there : StandsAt data header (member entry).1)
    (short : (title entry).length < 0x10000) (light : (packed entry).length < 0x100000000)
    (small : entry.data.length < 0x100000000) (near : header < 0x100000000)
    (before : header + 30 + (title entry).length ≤ limit) :
    memberAt (fileOf data) 0 limit place =
      some (stated entry header, place + 46 + (title entry).length) := by
  have start := dataStart?_of_stands there short
  simp only [member, sharedHeader, List.append_assoc, standsAt_append, length_le16, length_le32,
    Nat.add_assoc, Nat.reduceAdd] at stands
  obtain ⟨at0, at4, -, at8, at10, -, -, at16, at20, at24, at28, at30, at32, -, -, at38, at42,
    at46⟩ := stands
  have signature := u32At_of_stands at0 (by decide)
  have system : u8At (fileOf data) (place + 5) = some 3 := (u8At_of_le16 at4).2
  have flags := u16At_of_stands at8 (by decide)
  have method : u16At (fileOf data) (place + 10) = some (if entry.stored then 0 else 8) :=
    u16At_of_stands at10 (by split <;> decide)
  have checksum := u32At_of_stands at16 (UInt32.toNat_lt _)
  have packedSize : u32At (fileOf data) (place + 20) = some (packed entry).length :=
    u32At_of_stands at20 light
  have size := u32At_of_stands at24 small
  have named : u16At (fileOf data) (place + 28) = some (title entry).length :=
    u16At_of_stands at28 short
  have extra := u16At_of_stands at30 (by decide)
  have comment := u16At_of_stands at32 (by decide)
  have attributes := u32At_of_stands at38 (attributes_lt entry)
  have offset := u32At_of_stands at42 near
  have name : bytesAt (fileOf data) (place + 46) (title entry).length = some (title entry) :=
    bytesAt_of_stands at46
  have nothing : bytesAt (fileOf data) (place + 46 + (title entry).length) 0 = some [] :=
    @bytesAt_of_stands data [] _ at46.behind
  have known : (if entry.stored then 0 else 8) ≠ ArchiveMember.lockedMethod := by
    split <;> decide
  have inside : header < limit := by omega
  simp [memberAt, stated, signature, system, flags, method, checksum, packedSize, size, named,
    extra, comment, attributes, offset, name, nothing, text_nil, text_title, withExtra?_nil,
    permissionsOf_attributes, known, start, inside, before]

/-! ### The whole archive -/

/-- The members of entries, one behind the other. -/
def bodies (entries : List ArchiveEntry) : Bytes := entries.flatMap fun entry => (member entry).1

@[simp] theorem bodies_nil : bodies [] = [] := rfl

@[simp] theorem bodies_cons (entry : ArchiveEntry) (entries : List ArchiveEntry) :
    bodies (entry :: entries) = (member entry).1 ++ bodies entries := rfl

/-- The directory records of entries whose members stand one behind the other from an
offset on. -/
def recordsFrom (header : Nat) : List ArchiveEntry → Bytes
  | [] => []
  | entry :: entries =>
    (member entry).2 header ++ recordsFrom (header + (member entry).1.length) entries

/-- What the records say. -/
def statedFrom (header : Nat) : List ArchiveEntry → List ArchiveMember
  | [] => []
  | entry :: entries =>
    stated entry header :: statedFrom (header + (member entry).1.length) entries

/-- The end of an archive, with the number of its entries and the sizes of its members and
of its directory. -/
def endRecord (count directory members : Nat) : Bytes :=
  le32 endSignature ++ le16 0 ++ le16 0 ++ le16 count ++ le16 count ++ le32 directory ++
    le32 members ++ le16 0

theorem foldl_member (entries : List ArchiveEntry) (members records : List Bytes) (header : Nat) :
    ∃ members' records', entries.foldl
      (fun (members, records, offset) entry =>
        let (bytes, record) := member entry
        (bytes :: members, record offset :: records, offset + bytes.length))
      (members, records, header) = (members', records', header + (bodies entries).length) ∧
    members'.reverse.flatten = members.reverse.flatten ++ bodies entries ∧
    records'.reverse.flatten = records.reverse.flatten ++ recordsFrom header entries := by
  induction entries generalizing members records header with
  | nil => exact ⟨members, records, rfl, by simp, by simp [recordsFrom]⟩
  | cons entry entries ih =>
    obtain ⟨members', records', folded, first, second⟩ := ih ((member entry).1 :: members)
      ((member entry).2 header :: records) (header + (member entry).1.length)
    refine ⟨members', records', ?_, ?_, ?_⟩
    · rw [bodies_cons, List.length_append, ← Nat.add_assoc]
      exact folded
    · simpa using first
    · simpa [recordsFrom] using second

theorem write_eq (entries : List ArchiveEntry) :
    write entries = bodies entries ++ (recordsFrom 0 entries ++
      endRecord entries.length (recordsFrom 0 entries).length (bodies entries).length) := by
  obtain ⟨members, records, folded, first, second⟩ := foldl_member entries [] [] 0
  rw [write, folded]
  simp [first, second, endRecord]

theorem length_record (entry : ArchiveEntry) (header : Nat) :
    ((member entry).2 header).length = 46 + (title entry).length := by
  simp only [member, sharedHeader, List.length_append, length_le16, length_le32]
  rfl

/-- Compression never makes data shorter here. -/
theorem length_le_packed (entry : ArchiveEntry) : entry.data.length ≤ (packed entry).length := by
  unfold packed
  split
  · exact Nat.le_refl _
  · exact Inflate.length_le_plainBlocks (by omega)

variable {entries : List ArchiveEntry} {limit place : Nat}

/-- The records of a directory say of each entry what they should. -/
theorem membersFrom_of_stands (members : StandsAt data header (bodies entries))
    (records : StandsAt data place (recordsFrom header entries))
    (titles : ∀ entry ∈ entries, (title entry).length < 0x10000)
    (before : header + (bodies entries).length ≤ limit) (room : limit < 0x100000000) :
    membersFrom (fileOf data) 0 limit entries.length place = some (statedFrom header entries) := by
  induction entries generalizing header place with
  | nil => rfl
  | cons entry entries ih =>
    rw [bodies_cons, standsAt_append] at members
    rw [recordsFrom, standsAt_append, length_record, ← Nat.add_assoc] at records
    rw [bodies_cons, List.length_append, ← Nat.add_assoc] at before
    have length := length_member entry
    have light := length_le_packed entry
    have head : memberAt (fileOf data) 0 limit place =
        some (stated entry header, place + 46 + (title entry).length) :=
      memberAt_of_stands records.1 members.1 (titles entry List.mem_cons_self) (by omega)
        (by omega) (by omega) (by omega)
    have rest := ih members.2 records.2
      (fun other member => titles other (List.mem_cons_of_mem _ member)) before
    simp [membersFrom, statedFrom, head, rest]

theorem names_statedFrom (header : Nat) (entries : List ArchiveEntry) :
    (statedFrom header entries).map (·.name) = entries.map (·.name) := by
  induction entries generalizing header with
  | nil => rfl
  | cons entry entries ih => exact congrArg (entry.name :: ·) (ih _)

/-- Members of different names are all kept, in their order. -/
theorem foldl_addMember {known members : List ArchiveMember}
    (distinct : ((known ++ members).map (·.name)).Nodup) :
    members.foldl addMember known = known ++ members := by
  induction members generalizing known with
  | nil => simp
  | cons member members ih =>
    have fresh : ¬ known.any (·.name = member.name) := by
      rw [List.map_append, List.nodup_append] at distinct
      simpa using fun other held => distinct.2.2 _ (List.mem_map_of_mem held) _ List.mem_cons_self
    rw [List.foldl_cons, addMember, if_neg fresh, ih (by rwa [List.append_cons] at distinct),
      ← List.append_cons]

/-- Where the parts of an archive stand. -/
theorem stands_write (entries : List ArchiveEntry) :
    StandsAt (write entries) 0 (bodies entries) ∧
    StandsAt (write entries) (bodies entries).length (recordsFrom 0 entries) ∧
    StandsAt (write entries) ((bodies entries).length + (recordsFrom 0 entries).length)
      (endRecord entries.length (recordsFrom 0 entries).length (bodies entries).length) := by
  have whole : StandsAt (write entries) 0 (bodies entries ++ (recordsFrom 0 entries ++
      endRecord entries.length (recordsFrom 0 entries).length (bodies entries).length)) :=
    ⟨[], [], by rw [write_eq, List.append_nil, List.nil_append], rfl⟩
  rwa [standsAt_append, standsAt_append, Nat.zero_add] at whole

theorem length_write (entries : List ArchiveEntry) :
    (write entries).length = (bodies entries).length + (recordsFrom 0 entries).length + 22 := by
  rw [write_eq, List.length_append, List.length_append, ← Nat.add_assoc]
  rfl

/-- The directory is found at once, and nothing stands in front of the archive. -/
theorem archiveBase?_of_stands {record : Nat}
    (records : StandsAt data place (recordsFrom header entries))
    (edge : record = place + (recordsFrom header entries).length) :
    archiveBase? (fileOf data) record entries.length place = some 0 := by
  subst edge
  cases entries with
  | nil => simp [archiveBase?, recordsFrom]
  | cons entry entries =>
    rw [recordsFrom, standsAt_append] at records
    obtain ⟨more, many⟩ : ∃ more, (recordsFrom header (entry :: entries)).length = more + 4 :=
      Nat.exists_eq_add_of_le' (by
        rw [recordsFrom, List.length_append, length_record]
        omega)
    have signature : u32At (fileOf data) place = some directorySignature := by
      have record := records.1
      simp only [member, List.append_assoc, standsAt_append] at record
      exact u32At_of_stands record.1 (by decide)
    simp [archiveBase?, many, findRecord, signature]

/-- The entries an archive has room for: names that are distinct, not too long and told
apart from those of directories, and numbers that fit. -/
structure Fits (entries : List ArchiveEntry) : Prop where
  distinct : (entries.map (·.name)).Nodup
  directories : ∀ entry ∈ entries,
    entry.isDirectory = ArchiveEntry.isDirectoryName entry.name
  titles : ∀ entry ∈ entries, (title entry).length < 0x10000
  few : entries.length < 0x10000
  room : (write entries).length < 0x100000000

/-- The end record leads to the directory. -/
theorem directoryAt_write (fits : Fits entries) :
    directoryAt (fileOf (write entries))
      ((bodies entries).length + (recordsFrom 0 entries).length) =
      some (statedFrom 0 entries) := by
  obtain ⟨members, records, last⟩ := stands_write entries
  have size := length_write entries
  have room := fits.room
  generalize edge : (bodies entries).length + (recordsFrom 0 entries).length = record at *
  simp only [endRecord, List.append_assoc, standsAt_append, length_le16, length_le32,
    Nat.add_assoc, Nat.reduceAdd] at last
  obtain ⟨at0, at4, at6, at8, at10, -, at16, at20⟩ := last
  have signature := u32At_of_stands at0 (by decide)
  have disk := u16At_of_stands at4 (by decide)
  have start := u16At_of_stands at6 (by decide)
  have here := u16At_of_stands at8 fits.few
  have total := u16At_of_stands at10 fits.few
  have offset := u32At_of_stands at16 (by omega)
  have comment := u16At_of_stands at20 (by decide)
  have base := archiveBase?_of_stands records edge.symm
  have read := membersFrom_of_stands members records fits.titles (Nat.le_of_eq (Nat.zero_add _))
    (by omega)
  have distinct : (([] ++ statedFrom 0 entries).map ArchiveMember.name).Nodup := by
    rw [List.nil_append, names_statedFrom]
    exact fits.distinct
  have kept := foldl_addMember distinct
  simp [directoryAt, signature, disk, start, here, total, offset, comment, base, read, kept, size]

theorem directoryUpTo_of_directoryAt {file : ByteArray} {members : List ArchiveMember}
    (found : directoryAt file offset = some members) :
    directoryUpTo file offset = some members := by
  cases offset with
  | zero => exact found
  | succ offset => rw [directoryUpTo, found]

/-- An entry as it is read again: permission bits are there in any case, and only those
that archives have. -/
def restored (entry : ArchiveEntry) : ArchiveEntry :=
  { entry with permissions := some (bitsOf entry) }

theorem unpack?_packed (others : Unpacker) (entry : ArchiveEntry) :
    unpack? others (if entry.stored then 0 else 8) (packed entry) = some (some entry.data) := by
  unfold packed
  cases entry.stored with
  | true => rfl
  | false => exact congrArg some (Inflate.inflate?_deflate entry.data)

theorem entryOf_of_stands (others : Unpacker) (stands : StandsAt data header (member entry).1)
    (short : (title entry).length < 0x10000)
    (directory : entry.isDirectory = ArchiveEntry.isDirectoryName entry.name) :
    entryOf (fileOf data) others (stated entry header) = .ok (restored entry) := by
  have start := dataStart?_of_stands stands short
  obtain ⟨front, same, length⟩ := member_eq entry
  rw [same, standsAt_append, length, ← Nat.add_assoc] at stands
  have taken := extract_of_stands stands.2
  simp [entryOf, start, stated, taken, unpack?_packed, restored, directory, pure, Except.pure]

theorem mapM_entryOf (others : Unpacker) (members : StandsAt data header (bodies entries))
    (titles : ∀ entry ∈ entries, (title entry).length < 0x10000)
    (directories : ∀ entry ∈ entries,
      entry.isDirectory = ArchiveEntry.isDirectoryName entry.name) :
    (statedFrom header entries).mapM (entryOf (fileOf data) others) =
      .ok (entries.map restored) := by
  induction entries generalizing header with
  | nil => rfl
  | cons entry entries ih =>
    rw [bodies_cons, standsAt_append] at members
    have head := entryOf_of_stands others members.1 (titles entry List.mem_cons_self)
      (directories entry List.mem_cons_self)
    have rest := ih members.2 (fun other member => titles other (List.mem_cons_of_mem _ member))
      fun other member => directories other (List.mem_cons_of_mem _ member)
    rw [statedFrom, List.mapM_cons, head, rest]
    rfl

theorem read_eq_ok {others : Unpacker} : read data others = .ok entries ↔
    ∃ members, directoryUpTo (fileOf data) (data.length - 22) = some members ∧
      members.mapM (entryOf (fileOf data) others) = .ok entries := by
  rw [← Inflate.size_fileOf data]
  unfold read
  dsimp only [fileOf]
  cases directoryUpTo ⟨data.toArray⟩ (ByteArray.size ⟨data.toArray⟩ - 22) with
  | none => exact ⟨nofun, nofun⟩
  | some members => simp

/-- An archive is read as the entries it was written for. -/
theorem read_write (fits : Fits entries) (others : Unpacker) :
    read (write entries) others = .ok (entries.map restored) := by
  refine read_eq_ok.mpr ⟨_, directoryUpTo_of_directoryAt ?_,
    mapM_entryOf others (stands_write entries).1 fits.titles fits.directories⟩
  rw [length_write, Nat.add_sub_cancel]
  exact directoryAt_write fits

@[simp] theorem member_restored (entry : ArchiveEntry) :
    member (restored entry) = member entry := by
  have bits : bitsOf (restored entry) = bitsOf entry := Nat.mod_mod _ _
  have same : attributes (restored entry) = attributes entry := by
    unfold attributes
    rw [← bitsOf, ← bitsOf, bits]
    rfl
  unfold member
  rw [same]
  rfl

/-- Reading and writing an archive again changes nothing. -/
theorem write_restored (entries : List ArchiveEntry) :
    write (entries.map restored) = write entries := by
  simp only [write, List.foldl_map, member_restored, List.length_map]

theorem restored_eq_self {bits : Nat} (known : entry.permissions = some bits)
    (small : bits < 0x200) : restored entry = entry := by
  have same : bitsOf entry = bits := by
    rw [bitsOf, known]
    exact Nat.mod_eq_of_lt small
  rw [restored, same, ← known]

/-- With permission bits, entries are read as they were written. -/
theorem read_write_self (fits : Fits entries) (others : Unpacker)
    (known : ∀ entry ∈ entries, ∃ bits ∈ entry.permissions, bits < 0x200) :
    read (write entries) others = .ok entries := by
  have same : entries.map restored = entries.map id := by
    refine List.map_congr_left fun entry held => ?_
    obtain ⟨bits, known, small⟩ := known entry held
    exact restored_eq_self known small
  rw [read_write fits, same, List.map_id]

/-! ### What is read fits -/

variable {file : ByteArray} {members : List ArchiveMember} {others : Unpacker}

theorem addMember_nodup {known : List ArchiveMember} {added : ArchiveMember}
    (distinct : (known.map (·.name)).Nodup) : ((addMember known added).map (·.name)).Nodup := by
  unfold addMember
  split
  · have same (member : ArchiveMember) :
        (if member.name = added.name then added else member).name = member.name := by
      split
      · rename_i same
        exact same.symm
      · rfl
    rw [List.map_map]
    exact (List.map_congr_left fun member _ => same member).symm ▸ distinct
  · rename_i fresh
    rw [List.map_append, List.nodup_append]
    refine ⟨distinct, List.nodup_singleton _, ?_⟩
    simpa using fresh

theorem length_addMember_le (known : List ArchiveMember) (added : ArchiveMember) :
    (addMember known added).length ≤ known.length + 1 := by
  unfold addMember
  split <;> simp

theorem foldl_addMember_shape {known : List ArchiveMember}
    (distinct : (known.map (·.name)).Nodup) :
    ((members.foldl addMember known).map (·.name)).Nodup ∧
      (members.foldl addMember known).length ≤ known.length + members.length := by
  induction members generalizing known with
  | nil => exact ⟨distinct, Nat.le_refl _⟩
  | cons member members ih =>
    obtain ⟨names, few⟩ := @ih (addMember known member) (addMember_nodup distinct)
    have longer := length_addMember_le known member
    rw [List.foldl_cons, List.length_cons]
    exact ⟨names, by omega⟩

theorem length_membersFrom {base limit count : Nat}
    (found : membersFrom file base limit count offset = some members) :
    members.length = count := by
  induction count generalizing offset members with
  | zero =>
    cases found
    rfl
  | succ count ih =>
    obtain ⟨⟨member, next⟩, _, rest⟩ := Option.bind_eq_some_iff.mp found
    obtain ⟨others, others', same⟩ := Option.bind_eq_some_iff.mp rest
    cases same
    exact congrArg (· + 1) (ih others')

theorem u16At_lt (found : u16At file offset = some value) : value < 0x10000 := by
  obtain ⟨low, first, found⟩ := Option.bind_eq_some_iff.mp found
  obtain ⟨high, second, same⟩ := Option.bind_eq_some_iff.mp found
  obtain ⟨lowByte, -, rfl⟩ := Option.map_eq_some_iff.mp first
  obtain ⟨highByte, -, rfl⟩ := Option.map_eq_some_iff.mp second
  cases same
  have low := lowByte.toNat_lt
  have high := highByte.toNat_lt
  omega

theorem directoryAt_shape (found : directoryAt file offset = some members) :
    (members.map (·.name)).Nodup ∧ members.length < 0x10000 := by
  unfold directoryAt at found
  simp only [bind, Option.bind_eq_some_iff] at found
  obtain ⟨_, _, _, _, _, _, _, _, _, _, _, _, _, _, _, _, _, _, _, _, count, counted, all, listed,
    same⟩ := found
  cases same
  have few := u16At_lt counted
  have length := length_membersFrom listed
  obtain ⟨distinct, shorter⟩ := @foldl_addMember_shape all [] List.nodup_nil
  rw [List.length_nil] at shorter
  exact ⟨distinct, by omega⟩

theorem directoryUpTo_shape (found : directoryUpTo file offset = some members) :
    (members.map (·.name)).Nodup ∧ members.length < 0x10000 := by
  fun_induction directoryUpTo file offset with
  | case1 => exact directoryAt_shape found
  | case2 offset _ here =>
    cases found
    exact directoryAt_shape here
  | case3 offset _ ih => exact ih found

/-- An entry is what the directory says, with some data. -/
theorem eq_of_entryOf {member : ArchiveMember} (read : entryOf file others member = .ok entry) :
    ∃ data, entry =
      { name := member.name
        isDirectory := ArchiveEntry.isDirectoryName member.name
        stored := member.method = 0
        permissions := member.permissions
        data } := by
  unfold entryOf at read
  cases locked : member.isLocked with
  | true =>
    rw [locked] at read
    cases start : dataStart? file member.header <;> cases read
  | false =>
    cases start : dataStart? file member.header with
    | none => simp [locked, start] at read
    | some start =>
      simp only [locked, start, Bool.false_eq_true, if_false] at read
      split at read
      · split at read
        · cases read
          exact ⟨_, rfl⟩
        · split at read
          · split at read <;> cases read
            exact ⟨_, rfl⟩
          · cases read
      · cases read

theorem mapM_entryOf_shape (read : members.mapM (entryOf file others) = .ok entries) :
    entries.map (·.name) = members.map (·.name) ∧
      ∀ entry ∈ entries, entry.isDirectory = ArchiveEntry.isDirectoryName entry.name := by
  induction members generalizing entries with
  | nil =>
    cases read
    exact ⟨rfl, nofun⟩
  | cons member members ih =>
    rw [List.mapM_cons, bind_eq_ok] at read
    obtain ⟨entry, head, read⟩ := read
    obtain ⟨rest, tail, same⟩ := bind_eq_ok.mp read
    cases same
    obtain ⟨data, rfl⟩ := eq_of_entryOf head
    obtain ⟨names, directories⟩ := ih tail
    exact ⟨congrArg (member.name :: ·) names, List.forall_mem_cons.mpr ⟨rfl, directories⟩⟩

/-- Entries that were read have distinct names, tell directories by these and are not too
many. -/
theorem read_shape (read : read data others = .ok entries) :
    (entries.map (·.name)).Nodup ∧
      (∀ entry ∈ entries, entry.isDirectory = ArchiveEntry.isDirectoryName entry.name) ∧
      entries.length < 0x10000 := by
  obtain ⟨members, found, read⟩ := read_eq_ok.mp read
  obtain ⟨distinct, few⟩ := directoryUpTo_shape found
  obtain ⟨names, directories⟩ := mapM_entryOf_shape read
  have length := congrArg List.length names
  rw [List.length_map, List.length_map] at length
  exact ⟨names ▸ distinct, directories, length ▸ few⟩

end LiteralRecovery.Zip
