import LiteralRecovery.Archive.Inflate
import LiteralRecovery.Proofs.ConstantValues
import Mathlib.Algebra.Order.Group.Nat

/-! Plain blocks and what they stand for. A number of bits inside one byte is a part of
that byte, a number of sixteen bits at a byte's edge is made of two bytes, and a block
that states its own length puts out its bytes. So the compressed form that is written
stands for the data it was written for. -/
namespace LiteralRecovery.Inflate

/-! ### Bytes of a file -/

/-- Bytes as the contents of a file. -/
def fileOf (data : Bytes) : ByteArray := ⟨data.toArray⟩

variable {data front back bytes : Bytes} {source : Progress} {byte low high : UInt8}
variable {place offset count value : Nat}

@[simp] theorem size_fileOf (data : Bytes) : (fileOf data).size = data.length :=
  List.size_toArray

@[simp] theorem byteAt?_fileOf (data : Bytes) (place : Nat) :
    byteAt? (fileOf data) place = data[place]? := by
  unfold byteAt?
  by_cases inside : place < data.length
  · rw [dif_pos (by simpa using inside), List.getElem?_eq_getElem inside]
    rfl
  · rw [dif_neg (by simpa using inside), List.getElem?_eq_none (Nat.not_lt.mp inside)]

theorem byteAt?_behind (front bytes : Bytes) (place : Nat) :
    byteAt? (fileOf (front ++ bytes)) (front.length + place) = bytes[place]? := by
  rw [byteAt?_fileOf, List.getElem?_append_right (Nat.le_add_right _ _), Nat.add_sub_cancel_left]

theorem toList_loop (file : ByteArray) (place : Nat) (done : Bytes) :
    ByteArray.toList.loop file place done = done.reverse ++ file.data.toList.drop place := by
  fun_induction ByteArray.toList.loop file place done with
  | case1 place done inside ih =>
    have held : place < file.data.toList.length := by simpa using inside
    rw [ih, List.drop_eq_getElem_cons held]
    simp [ByteArray.get!, inside]
  | case2 place done outside =>
    rw [List.drop_eq_nil_of_le (by simpa using Nat.not_lt.mp outside), List.append_nil]

theorem toList_eq_data (file : ByteArray) : file.toList = file.data.toList := by
  rw [ByteArray.toList, toList_loop]
  rfl

@[simp] theorem toList_fileOf (data : Bytes) : (fileOf data).toList = data :=
  toList_eq_data _

@[simp] theorem fileOf_append (front back : Bytes) :
    fileOf front ++ fileOf back = fileOf (front ++ back) := by
  apply ByteArray.ext
  simp [fileOf]

theorem extract_fileOf (front bytes back : Bytes) :
    (fileOf (front ++ (bytes ++ back))).extract front.length (front.length + bytes.length) =
      fileOf bytes := by
  apply ByteArray.ext
  apply Array.ext'
  simp [fileOf]

/-! ### Numbers of bits -/

/-- The reader some bits further on. -/
def Progress.onward (source : Progress) (count : Nat) : Progress :=
  { source with position := source.position + count }

theorem yields_bit (held : byteAt? source.bytes place = some byte)
    (here : source.position = 8 * place + offset) (inside : offset < 8) :
    Yields bit source ((byte.toNat >>> offset) % 2) (source.onward 1) := by
  have edge : source.position / 8 = place := by omega
  have left : source.position % 8 = offset := by omega
  rw [Yields, bit, run_get_bind, edge, held, left]
  rfl

/-- Bits inside a byte are a part of it. -/
theorem yields_bits (held : byteAt? source.bytes place = some byte)
    (here : source.position = 8 * place + offset) (inside : offset + count ≤ 8) :
    Yields (bits count) source ((byte.toNat >>> offset) % 2 ^ count) (source.onward count) := by
  induction count generalizing source offset with
  | zero => exact yields_pure.mpr ⟨Nat.mod_one _, rfl⟩
  | succ count ih =>
    have rest := @ih (source.onward 1) (offset + 1) held
      (by rw [Progress.onward, here, Nat.add_assoc]) (by omega)
    refine yields_bind.mpr ⟨_, _, yields_bit held here (by omega),
      yields_bind.mpr ⟨_, _, rest, yields_pure.mpr ⟨?_, ?_⟩⟩⟩
    · rw [Nat.pow_succ', Nat.mod_mul, Nat.shiftRight_succ]
    · simp only [Progress.onward, Nat.add_assoc, Nat.add_comm 1]

/-- Bits in a row, the first of them the lowest. -/
theorem yields_bits_add {more : Nat} {between after : Progress} {first second : Nat}
    (early : Yields (bits count) source first between)
    (late : Yields (bits more) between second after) :
    Yields (bits (count + more)) source (first + 2 ^ count * second) after := by
  induction count generalizing source first with
  | zero =>
    obtain ⟨rfl, rfl⟩ := yields_pure.mp early
    simpa using late
  | succ count ih =>
    obtain ⟨one, next, head, rest⟩ := yields_bind.mp early
    obtain ⟨others, _, tail, last⟩ := yields_bind.mp rest
    obtain ⟨rfl, rfl⟩ := yields_pure.mp last
    rw [Nat.succ_add]
    refine yields_bind.mpr ⟨one, next, head, yields_bind.mpr ⟨_, _, ih tail, ?_⟩⟩
    refine yields_pure.mpr ⟨?_, rfl⟩
    rw [Nat.pow_succ', Nat.mul_add, Nat.mul_assoc, Nat.add_assoc]

/-- Sixteen bits from the edge of a byte on. -/
theorem yields_bits_sixteen (here : source.position = 8 * place)
    (first : byteAt? source.bytes place = some low)
    (second : byteAt? source.bytes (place + 1) = some high) :
    Yields (bits 16) source (low.toNat + 256 * high.toNat) (source.onward 16) := by
  have early : Yields (bits 8) source ((low.toNat >>> 0) % 2 ^ 8) (source.onward 8) :=
    yields_bits first here (Nat.le_refl 8)
  have late : Yields (bits 8) (source.onward 8) ((high.toNat >>> 0) % 2 ^ 8) (source.onward 16) :=
    yields_bits second (by simp only [Progress.onward]; omega) (Nat.le_refl 8)
  rw [Nat.shiftRight_zero, Nat.mod_eq_of_lt low.toNat_lt] at early
  rw [Nat.shiftRight_zero, Nat.mod_eq_of_lt high.toNat_lt] at late
  exact yields_bits_add early late

/-! ### Blocks -/

/-- What stands in front of the bytes of a plain block. -/
def plainHeader (isLast : Bool) (length : UInt16) : Bytes :=
  let complement := 0xFFFF - length
  [if isLast then 1 else 0, length.toUInt8, (length >>> 8).toUInt8, complement.toUInt8,
    (complement >>> 8).toUInt8]

theorem plainBlocks_succ (steps : Nat) (data : Bytes) :
    plainBlocks (steps + 1) data =
      plainHeader (data.drop 0xFFFF).isEmpty (data.take 0xFFFF).length.toUInt16 ++
        (data.take 0xFFFF ++ if (data.drop 0xFFFF).isEmpty then [] else
          plainBlocks steps (data.drop 0xFFFF)) := by
  simp [plainBlocks, plainHeader]

/-- A 16-bit number is made of its two bytes. -/
theorem toNat_of_bytes (length : UInt16) :
    length.toUInt8.toNat + 256 * (length >>> 8).toUInt8.toNat = length.toNat := by
  have bound := length.toNat_lt
  have high : (length >>> 8).toNat = length.toNat / 256 := by
    rw [UInt16.toNat_shiftRight]
    exact Nat.shiftRight_eq_div_pow _ _
  rw [UInt16.toNat_toUInt8, UInt16.toNat_toUInt8, high]
  omega

/-- A plain block puts out the bytes that it has counted. -/
theorem yields_plainBlock {chunk : Bytes} {isLast : Bool} {length : UInt16}
    (counted : length.toNat = chunk.length)
    (bytes : source.bytes = fileOf (front ++ (plainHeader isLast length ++ (chunk ++ back))))
    (here : source.position = 8 * front.length + 3) :
    Yields plainBlock source ()
      { source with
        position := 8 * (front.length + 5 + chunk.length)
        output := source.output ++ fileOf chunk } := by
  let aligned : Progress := { source with position := (source.position + 7) / 8 * 8 }
  have edge : aligned.position = 8 * (front.length + 1) := by
    change (source.position + 7) / 8 * 8 = _
    omega
  have held (index : Nat) : byteAt? source.bytes (front.length + index) =
      (plainHeader isLast length ++ (chunk ++ back))[index]? := by
    rw [bytes, byteAt?_behind]
  -- the two numbers behind the bits that say what kind of block this is
  have first : Yields (bits 16) aligned length.toNat (aligned.onward 16) := by
    rw [← toNat_of_bytes]
    exact yields_bits_sixteen edge (held 1) (held 2)
  have second : Yields (bits 16) (aligned.onward 16) (0xFFFF - length).toNat
      (aligned.onward 32) := by
    rw [← toNat_of_bytes]
    refine yields_bits_sixteen ?_ (held 3) (held 4)
    simp only [Progress.onward, edge]
    omega
  have bound := length.toNat_lt
  have complement : (0xFFFF - length).toNat = 0xFFFF - length.toNat :=
    UInt16.toNat_sub_of_le _ _ (UInt16.le_iff_toNat_le.mpr (Nat.le_of_lt_succ bound))
  refine yields_bind.mpr ⟨(), aligned, yields_modify.mpr rfl, yields_bind.mpr ⟨_, _, first,
    yields_bind.mpr ⟨_, _, second, ?_⟩⟩⟩
  rw [if_neg (by omega)]
  have place : (aligned.onward 32).position / 8 = front.length + 5 := by
    simp only [Progress.onward, edge]
    omega
  have taken : (aligned.onward 32).bytes.extract (front.length + 5)
      (front.length + 5 + length.toNat) = fileOf chunk := by
    have whole : source.bytes =
        fileOf ((front ++ plainHeader isLast length) ++ (chunk ++ back)) := by
      rw [bytes, List.append_assoc]
    have header : (front ++ plainHeader isLast length).length = front.length + 5 :=
      List.length_append
    rw [counted, ← header, ← extract_fileOf _ chunk back, ← whole]
    rfl
  have size : ¬ (aligned.onward 32).bytes.size < front.length + 5 + length.toNat := by
    change ¬ source.bytes.size < _
    rw [bytes, size_fileOf]
    simp only [List.length_append, plainHeader, List.length_cons, List.length_nil]
    omega
  refine yields_bind.mpr ⟨_, _, yields_get.mpr ⟨rfl, rfl⟩, yields_bind.mpr ⟨(), _, rfl, ?_⟩⟩
  rw [place, taken, if_neg size]
  have position : (aligned.onward 32).position + 8 * length.toNat =
      8 * (front.length + 5 + chunk.length) := by
    simp only [Progress.onward, edge]
    omega
  rw [position]
  exact yields_pure.mpr ⟨rfl, rfl⟩

theorem length_le_plainBlocks {steps : Nat} (enough : data.length ≤ 0xFFFF * steps) :
    data.length ≤ (plainBlocks steps data).length := by
  induction steps generalizing data with
  | zero => exact Nat.le_trans enough (Nat.zero_le _)
  | succ steps ih =>
    have rest := @ih (data.drop 0xFFFF) (by rw [List.length_drop]; omega)
    rw [plainBlocks_succ, List.length_append, List.length_append, List.length_take]
    rw [List.length_drop] at rest
    by_cases done : (data.drop 0xFFFF).isEmpty
    · rw [List.isEmpty_iff, List.drop_eq_nil_iff] at done
      omega
    · rw [if_neg done]
      omega

/-- The reader behind a plain block of some bytes, given what stands in front of it. -/
def Progress.past (source : Progress) (front chunk : Bytes) : Progress :=
  { source with
    position := 8 * (front.length + 5 + chunk.length)
    output := source.output ++ fileOf chunk }

/-- A plain block, and whatever follows unless it is the last one. -/
theorem yields_blocks_succ {fuel : Nat} {chunk : Bytes} {isLast : Bool} {length : UInt16}
    {done : Progress} (counted : length.toNat = chunk.length)
    (bytes : source.bytes = fileOf (front ++ (plainHeader isLast length ++ (chunk ++ back))))
    (here : source.position = 8 * front.length)
    (rest : if isLast then done = source.past front chunk else
      Yields (blocks fuel) (source.past front chunk) () done) :
    Yields (blocks (fuel + 1)) source () done := by
  have head : byteAt? source.bytes front.length = some (if isLast then 1 else 0) := by
    rw [bytes]
    exact byteAt?_behind front _ 0
  have first := @yields_bit source _ front.length 0 head here (by omega)
  have kind := @yields_bits (source.onward 1) _ front.length 1 2 head (congrArg (· + 1) here)
    (by omega)
  have block := @yields_plainBlock front back (source.onward 3) _ _ _ counted bytes
    (congrArg (· + 3) here)
  unfold blocks
  cases isLast with
  | true =>
    cases rest
    exact yields_bind.mpr ⟨_, _, first, yields_bind.mpr ⟨_, _, yields_get.mpr ⟨rfl, rfl⟩,
      yields_bind.mpr ⟨0, _, kind, yields_bind.mpr ⟨_, _, block, yields_pure.mpr ⟨rfl, rfl⟩⟩⟩⟩⟩
  | false =>
    exact yields_bind.mpr ⟨_, _, first, yields_bind.mpr ⟨_, _, yields_get.mpr ⟨rfl, rfl⟩,
      yields_bind.mpr ⟨0, _, kind, yields_bind.mpr ⟨_, _, block, rest⟩⟩⟩⟩

/-- Blocks one after the other put out the data that they were made for. -/
theorem yields_blocks {steps fuel : Nat} (possible : 0 < steps)
    (enough : data.length ≤ 0xFFFF * steps) (fuelled : data.length < fuel)
    (bytes : source.bytes = fileOf (front ++ plainBlocks steps data))
    (here : source.position = 8 * front.length) :
    ∃ done, Yields (blocks fuel) source () done ∧ done.output = source.output ++ fileOf data := by
  induction steps generalizing data front source fuel with
  | zero => cases possible
  | succ steps ih =>
    obtain ⟨fuel, rfl⟩ := Nat.exists_eq_add_one_of_ne_zero (Nat.ne_zero_of_lt fuelled)
    rw [plainBlocks_succ] at bytes
    have whole : data.take 0xFFFF ++ data.drop 0xFFFF = data := List.take_append_drop _ _
    have counted : (data.take 0xFFFF).length.toUInt16.toNat = (data.take 0xFFFF).length :=
      Nat.mod_eq_of_lt (by rw [List.length_take]; omega)
    generalize data.take 0xFFFF = chunk at *
    cases others : data.drop 0xFFFF with
    | nil =>
      rw [others] at bytes whole
      rw [List.append_nil] at whole
      have last : source.bytes = fileOf (front ++
        (plainHeader true chunk.length.toUInt16 ++ (chunk ++ []))) := bytes
      exact ⟨_, yields_blocks_succ counted last here rfl, by rw [← whole]; rfl⟩
    | cons byte rest =>
      rw [others] at bytes whole
      -- the rest stands behind the bytes of this block, and so does the reader after it
      have more : source.bytes = fileOf (front ++ (plainHeader false chunk.length.toUInt16 ++
        (chunk ++ plainBlocks steps (byte :: rest)))) := bytes
      have behind : source.bytes = fileOf ((front ++ plainHeader false chunk.length.toUInt16 ++
          chunk) ++ plainBlocks steps (byte :: rest)) := by
        rw [more]
        simp only [List.append_assoc]
      have length := congrArg List.length others
      rw [List.length_drop, List.length_cons] at length
      obtain ⟨done, blocks, output⟩ := @ih (byte :: rest) _ (source.past front chunk) fuel
        (by omega) (by rw [List.length_cons]; omega) (by rw [List.length_cons]; omega) behind
        (by rw [List.length_append, List.length_append]; rfl)
      refine ⟨done, yields_blocks_succ counted more here blocks, ?_⟩
      rw [output, Progress.past, ByteArray.append_assoc, fileOf_append, whole]

/-- What was compressed comes out again. -/
theorem inflate?_deflate (data : Bytes) : inflate? (deflate data) = some data := by
  have enough : data.length ≤ 0xFFFF * (data.length / 0xFFFF + 1) := by omega
  have fuelled : data.length < 8 * (deflate data).length + 1 := by
    have longer := length_le_plainBlocks enough
    unfold deflate
    omega
  obtain ⟨done, yields, output⟩ := @yields_blocks data [] ⟨fileOf (deflate data), 0, .empty⟩ _ _
    (Nat.succ_pos _) enough fuelled rfl rfl
  have run : (blocks (8 * (deflate data).length + 1)).run.run
      ⟨⟨(deflate data).toArray⟩, 0, .empty⟩ = (.ok (), done) := yields
  rw [inflate?, run]
  change some done.output.toList = some data
  rw [output, ByteArray.empty_append, toList_fileOf]

end LiteralRecovery.Inflate
