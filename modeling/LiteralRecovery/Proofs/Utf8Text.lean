import LiteralRecovery.Proofs.PlainBlocks
import LiteralRecovery.Text.Utf8

/-! Text in standard UTF-8 is no loss for the decoder that replaces what is no
character. Which bytes belong together is told by their numbers: the bytes of one
character are taken as a whole, and make that character again. -/
namespace LiteralRecovery.Utf8

variable {a b c d : UInt8} {done : List Char} {rest : Bytes}

/-! ### Bytes that belong together -/

theorem single_iff : a < 0x80 ↔ a.toNat < 0x80 := UInt8.lt_iff_toNat_lt

theorem continues_iff : continues b = true ↔ 0x80 ≤ b.toNat ∧ b.toNat < 0xC0 := by
  simp [continues, UInt8.le_iff_toNat_le, UInt8.lt_iff_toNat_lt]

theorem isTwo_iff : isTwo a b = true ↔
    0xC2 ≤ a.toNat ∧ a.toNat < 0xE0 ∧ 0x80 ≤ b.toNat ∧ b.toNat < 0xC0 := by
  simp [isTwo, continues_iff, UInt8.le_iff_toNat_le, UInt8.lt_iff_toNat_lt, and_assoc]

theorem isThree_iff : isThree a b c = true ↔
    0xE0 ≤ a.toNat ∧ a.toNat < 0xF0 ∧ 0x80 ≤ b.toNat ∧ b.toNat < 0xC0 ∧
      0x80 ≤ c.toNat ∧ c.toNat < 0xC0 ∧ (a.toNat ≠ 0xE0 ∨ 0xA0 ≤ b.toNat) ∧
      (a.toNat ≠ 0xED ∨ b.toNat < 0xA0) := by
  simp [isThree, continues_iff, UInt8.le_iff_toNat_le, UInt8.lt_iff_toNat_lt, and_assoc,
    ← UInt8.toNat_inj]

theorem isFour_iff : isFour a b c d = true ↔
    0xF0 ≤ a.toNat ∧ a.toNat < 0xF5 ∧ 0x80 ≤ b.toNat ∧ b.toNat < 0xC0 ∧
      0x80 ≤ c.toNat ∧ c.toNat < 0xC0 ∧ 0x80 ≤ d.toNat ∧ d.toNat < 0xC0 ∧
      (a.toNat ≠ 0xF0 ∨ 0x90 ≤ b.toNat) ∧ (a.toNat ≠ 0xF4 ∨ b.toNat < 0x90) := by
  simp [isFour, continues_iff, UInt8.le_iff_toNat_le, UInt8.lt_iff_toNat_lt, and_assoc,
    ← UInt8.toNat_inj]

/-! ### One character -/

theorem lossyOnto_one (one : a.toNat < 0x80) :
    lossyOnto done (a :: rest) = lossyOnto (Char.ofNat a.toNat :: done) rest := by
  have single := single_iff.mpr one
  rcases rest with _ | ⟨b, _ | ⟨c, _ | ⟨d, rest⟩⟩⟩
  · rw [lossyOnto.eq_2, if_pos single]
  · rw [lossyOnto.eq_3, if_pos single]
  · rw [lossyOnto.eq_4, if_pos single]
  · rw [lossyOnto.eq_5, if_pos single]

theorem lossyOnto_two (two : isTwo a b = true) :
    lossyOnto done (a :: b :: rest) = lossyOnto (charOfTwo a b :: done) rest := by
  have numbers := isTwo_iff.mp two
  have longer : ¬ a < 0x80 := by
    rw [single_iff]
    omega
  rcases rest with _ | ⟨c, _ | ⟨d, rest⟩⟩
  · rw [lossyOnto.eq_3, if_neg longer, if_pos two]
  · rw [lossyOnto.eq_4, if_neg longer, if_pos two]
  · rw [lossyOnto.eq_5, if_neg longer, if_pos two]

theorem lossyOnto_three (three : isThree a b c = true) :
    lossyOnto done (a :: b :: c :: rest) = lossyOnto (charOfThree a b c :: done) rest := by
  have numbers := isThree_iff.mp three
  have longer : ¬ a < 0x80 := by
    rw [single_iff]
    omega
  have more : ¬ isTwo a b = true := by
    rw [isTwo_iff]
    omega
  have second : ¬ (!isSecond a b) = true := by
    have begins : isThree a b 0x80 = true := by
      have filler : (0x80 : UInt8).toNat = 0x80 := rfl
      rw [isThree_iff, filler]
      omega
    simp [isSecond, begins]
  rcases rest with _ | ⟨d, rest⟩
  · rw [lossyOnto.eq_4, if_neg longer, if_neg more, if_neg second, if_pos three]
  · rw [lossyOnto.eq_5, if_neg longer, if_neg more, if_neg second, if_pos three]

theorem lossyOnto_four (four : isFour a b c d = true) :
    lossyOnto done (a :: b :: c :: d :: rest) = lossyOnto (charOfFour a b c d :: done) rest := by
  obtain ⟨atLeast, _, _, _, low, high, _⟩ := isFour_iff.mp four
  have longer : ¬ a < 0x80 := by
    rw [single_iff]
    omega
  have more : ¬ isTwo a b = true := by
    rw [isTwo_iff]
    omega
  have second : ¬ (!isSecond a b) = true := by
    have begins : isFour a b 0x80 0x80 = true := by
      have filler : (0x80 : UInt8).toNat = 0x80 := rfl
      rw [isFour_iff, filler]
      omega
    simp [isSecond, begins]
  have third : ¬ isThree a b c = true := by
    rw [isThree_iff]
    omega
  have goes : ¬ (!continues c || decide (a < 0xF0)) = true := by
    have large : ¬ a < 0xF0 := by
      rw [UInt8.lt_iff_toNat_lt]
      exact Nat.not_lt.mpr atLeast
    simp [continues_iff.mpr ⟨low, high⟩, large]
  rw [lossyOnto.eq_5, if_neg longer, if_neg more, if_neg second, if_neg third, if_neg goes,
    if_pos four]

/-- The bytes of a character are read as that character. -/
theorem lossyOnto_encoded (char : Char) :
    lossyOnto done (String.utf8EncodeChar char ++ rest) = lossyOnto (char :: done) rest := by
  have scalar : char.val.toNat < 0xD800 ∨ 0xDFFF < char.val.toNat ∧ char.val.toNat < 0x110000 :=
    char.valid
  have back : Char.ofNat char.val.toNat = char := Char.ofNat_toNat char
  have byte {number : Nat} (small : number < 0x100) : (UInt8.ofNat number).toNat = number :=
    UInt8.toNat_ofNat_of_lt' small
  unfold String.utf8EncodeChar
  generalize char.val.toNat = code at *
  dsimp only
  split
  · have first := @byte code (by omega)
    rw [List.singleton_append, lossyOnto_one (by omega), first, back]
  · split
    · have first := @byte (code / 64 % 32 + 192) (by omega)
      have second := @byte (code % 64 + 128) (by omega)
      rw [List.cons_append, List.cons_append, List.nil_append,
        lossyOnto_two (isTwo_iff.mpr (by omega)), charOfTwo, first, second, ← back]
      congr 3
      omega
    · split
      · have first := @byte (code / 4096 % 16 + 224) (by omega)
        have second := @byte (code / 64 % 64 + 128) (by omega)
        have third := @byte (code % 64 + 128) (by omega)
        rw [List.cons_append, List.cons_append, List.cons_append, List.nil_append,
          lossyOnto_three (isThree_iff.mpr (by omega)), charOfThree, first, second, third, ← back]
        congr 3
        omega
      · have first := @byte (code / 262144 % 8 + 240) (by omega)
        have second := @byte (code / 4096 % 64 + 128) (by omega)
        have third := @byte (code / 64 % 64 + 128) (by omega)
        have fourth := @byte (code % 64 + 128) (by omega)
        rw [List.cons_append, List.cons_append, List.cons_append, List.cons_append,
          List.nil_append, lossyOnto_four (isFour_iff.mpr (by omega)), charOfFour, first, second,
          third, fourth, ← back]
        congr 3
        omega

theorem toList_toUTF8 (text : String) :
    text.toUTF8.toList = text.toList.flatMap String.utf8EncodeChar := by
  rw [Inflate.toList_eq_data, String.toUTF8_eq_toByteArray, ← String.ofList_toList (s := text),
    String.toByteArray_ofList, String.ofList_toList]
  exact List.toList_data_toByteArray

/-- A text survives its standard form. -/
theorem decodeLossy_toUTF8 (text : String) : decodeLossy text.toUTF8.toList = text := by
  have onward (chars done : List Char) :
      lossyOnto done (chars.flatMap String.utf8EncodeChar) = done.reverse ++ chars := by
    induction chars generalizing done with
    | nil => simp [lossyOnto]
    | cons char chars ih =>
      rw [List.flatMap_cons, lossyOnto_encoded, ih, List.reverse_cons, List.append_assoc]
      rfl
  rw [decodeLossy, toList_toUTF8, onward, List.reverse_nil, List.nil_append,
    String.ofList_toList]

end LiteralRecovery.Utf8
