import LiteralRecovery.Text.Utf16

/-! Text and its code units. Every text has units that read back as it, and a
unit sequence that reads as a text is the unit form of that text: pairing
surrogates and splitting characters undo one another. A unit sequence reads as
no text just when one of its surrogates is alone. -/
namespace LiteralRecovery

section Units

variable {unit high low : UInt16}

theorem isHighSurrogate_iff :
    isHighSurrogate unit = true ↔ 0xD800 ≤ unit.toNat ∧ unit.toNat < 0xDC00 := by
  simp [isHighSurrogate, UInt16.le_iff_toNat_le, UInt16.lt_iff_toNat_lt]

theorem isLowSurrogate_iff :
    isLowSurrogate unit = true ↔ 0xDC00 ≤ unit.toNat ∧ unit.toNat < 0xE000 := by
  simp [isLowSurrogate, UInt16.le_iff_toNat_le, UInt16.lt_iff_toNat_lt]

private theorem toNat_ofNat_valid {code : Nat} (valid : code.isValidChar) :
    (Char.ofNat code).toNat = code := by
  rw [Char.ofNat, dif_pos valid]
  rfl

/-- A unit that is no surrogate is a character of its own. -/
theorem utf16Units_of_plain (notHigh : isHighSurrogate unit = false)
    (notLow : isLowSurrogate unit = false) : utf16Units (Char.ofNat unit.toNat) = [unit] := by
  have bound := unit.toNat_lt
  have high : ¬ (0xD800 ≤ unit.toNat ∧ unit.toNat < 0xDC00) := by
    rw [← isHighSurrogate_iff, notHigh]
    simp
  have low : ¬ (0xDC00 ≤ unit.toNat ∧ unit.toNat < 0xE000) := by
    rw [← isLowSurrogate_iff, notLow]
    simp
  have valid : unit.toNat.isValidChar := by
    simp only [Nat.isValidChar]
    omega
  rw [utf16Units, toNat_ofNat_valid valid, if_pos (by omega)]
  simp

/-- The character of a surrogate pair has that pair as its units. -/
theorem utf16Units_of_pair (isHigh : isHighSurrogate high = true)
    (isLow : isLowSurrogate low = true) : utf16Units (charOfPair high low) = [high, low] := by
  have upper := isHighSurrogate_iff.mp isHigh
  have lower := isLowSurrogate_iff.mp isLow
  have valid : (0x10000 + (high.toNat - 0xD800) * 0x400 + (low.toNat - 0xDC00)).isValidChar := by
    simp only [Nat.isValidChar]
    omega
  rw [utf16Units, charOfPair, toNat_ofNat_valid valid, if_neg (by omega)]
  have first : 0xD800 +
      (0x10000 + (high.toNat - 0xD800) * 0x400 + (low.toNat - 0xDC00) - 0x10000) / 0x400 =
        high.toNat := by omega
  have second : 0xDC00 +
      (0x10000 + (high.toNat - 0xD800) * 0x400 + (low.toNat - 0xDC00) - 0x10000) % 0x400 =
        low.toNat := by omega
  simp only [first, second, Nat.toUInt16_eq, UInt16.ofNat_toNat]

theorem flatMap_of_charsOfUnits {units : List UInt16} {chars : List Char}
    (read : charsOfUnits units = some chars) : chars.flatMap utf16Units = units := by
  fun_induction charsOfUnits units generalizing chars with
  | case1 =>
    cases read
    rfl
  | case2 unit surrogate => cases read
  | case3 unit plain =>
    cases read
    simp only [Bool.or_eq_true, not_or, Bool.not_eq_true] at plain
    simp [utf16Units_of_plain plain.1 plain.2]
  | case4 unit next rest isHigh isLow ih =>
    obtain ⟨tail, behind, rfl⟩ := Option.map_eq_some_iff.mp read
    simp [utf16Units_of_pair isHigh isLow, ih behind]
  | case5 unit next rest isHigh notLow => cases read
  | case6 unit next rest notHigh isLow => cases read
  | case7 unit next rest notHigh notLow ih =>
    obtain ⟨tail, behind, rfl⟩ := Option.map_eq_some_iff.mp read
    simp only [Bool.not_eq_true] at notHigh notLow
    simp [utf16Units_of_plain notHigh notLow, ih behind]

theorem charsOfUnits_plain (rest : List UInt16) (notHigh : isHighSurrogate unit = false)
    (notLow : isLowSurrogate unit = false) :
    charsOfUnits (unit :: rest) = (charsOfUnits rest).map (Char.ofNat unit.toNat :: ·) := by
  cases rest <;> simp [charsOfUnits, notHigh, notLow]

end Units

theorem charsOfUnits_units (c : Char) (rest : List UInt16) :
    charsOfUnits (utf16Units c ++ rest) = (charsOfUnits rest).map (c :: ·) := by
  have valid : c.toNat < 0xD800 ∨ 0xDFFF < c.toNat ∧ c.toNat < 0x110000 := c.valid
  by_cases short : c.toNat < 0x10000
  · have number : c.toNat.toUInt16.toNat = c.toNat := by
      simpa [Nat.toUInt16_eq] using short
    have notHigh : isHighSurrogate c.toNat.toUInt16 = false := by
      rw [← Bool.not_eq_true, isHighSurrogate_iff]
      omega
    have notLow : isLowSurrogate c.toNat.toUInt16 = false := by
      rw [← Bool.not_eq_true, isLowSurrogate_iff]
      omega
    rw [utf16Units, if_pos short, List.singleton_append, charsOfUnits_plain rest notHigh notLow,
      number, Char.ofNat_toNat]
  · -- the two halves of the offset are read back by position
    have upper : (0xD800 + (c.toNat - 0x10000) / 0x400).toUInt16.toNat =
        0xD800 + (c.toNat - 0x10000) / 0x400 := by
      rw [Nat.toUInt16_eq, UInt16.toNat_ofNat']
      omega
    have lower : (0xDC00 + (c.toNat - 0x10000) % 0x400).toUInt16.toNat =
        0xDC00 + (c.toNat - 0x10000) % 0x400 := by
      rw [Nat.toUInt16_eq, UInt16.toNat_ofNat']
      omega
    have isHigh : isHighSurrogate (0xD800 + (c.toNat - 0x10000) / 0x400).toUInt16 = true := by
      rw [isHighSurrogate_iff]
      omega
    have isLow : isLowSurrogate (0xDC00 + (c.toNat - 0x10000) % 0x400).toUInt16 = true := by
      rw [isLowSurrogate_iff]
      omega
    have whole : 0x10000 + (0xD800 + (c.toNat - 0x10000) / 0x400 - 0xD800) * 0x400 +
        (0xDC00 + (c.toNat - 0x10000) % 0x400 - 0xDC00) = c.toNat := by omega
    simp only [utf16Units, if_neg short, List.cons_append, List.nil_append, charsOfUnits, isHigh,
      isLow, if_true, charOfPair, upper, lower, whole, Char.ofNat_toNat]

theorem charsOfUnits_flatMap (chars : List Char) :
    charsOfUnits (chars.flatMap utf16Units) = some chars := by
  induction chars with
  | nil => rfl
  | cons c rest ih => rw [List.flatMap_cons, charsOfUnits_units, ih, Option.map_some]

/-! ### Surrogates without a partner -/

section LoneSurrogates

variable {first high low : UInt16} {rest : List UInt16} {place : Nat}

/-- A high surrogate and a low one stand side by side. -/
def PairAt (units : List UInt16) (place : Nat) : Prop :=
  ∃ high low, units[place]? = some high ∧ units[place + 1]? = some low ∧
    isHighSurrogate high = true ∧ isLowSurrogate low = true

/-- A surrogate is in no pair, neither with the unit behind it nor with the one
before it. -/
def LoneSurrogateIn (units : List UInt16) : Prop :=
  ∃ place unit, units[place]? = some unit ∧
    (isHighSurrogate unit = true ∨ isLowSurrogate unit = true) ∧
    ¬ PairAt units place ∧ ∀ earlier, earlier + 1 = place → ¬ PairAt units earlier

theorem not_high_of_low (isLow : isLowSurrogate low = true) : ¬ isHighSurrogate low = true := by
  rw [isLowSurrogate_iff] at isLow
  rw [isHighSurrogate_iff]
  omega

@[simp] theorem pairAt_cons_succ : PairAt (first :: rest) (place + 1) ↔ PairAt rest place := by
  simp [PairAt]

theorem not_pairAt_zero
    (broken : isHighSurrogate first = true →
      ∀ low, rest[0]? = some low → ¬ isLowSurrogate low = true) : ¬ PairAt (first :: rest) 0 := by
  rintro ⟨_, low, found, next, isHigh, isLow⟩
  cases found
  exact broken isHigh low next isLow

/-- A unit that begins no pair has no part in what follows it. -/
theorem loneSurrogateIn_cons (apart : ¬ PairAt (first :: rest) 0) :
    LoneSurrogateIn (first :: rest) ↔
      (isHighSurrogate first = true ∨ isLowSurrogate first = true) ∨ LoneSurrogateIn rest := by
  constructor
  · rintro ⟨place, unit, found, surrogate, ahead, behind⟩
    cases place with
    | zero =>
      cases found
      exact .inl surrogate
    | succ place =>
      refine .inr ⟨place, unit, found, surrogate, mt pairAt_cons_succ.mpr ahead, ?_⟩
      rintro earlier rfl
      exact mt pairAt_cons_succ.mpr (behind (earlier + 1) rfl)
  · rintro (surrogate | ⟨place, unit, found, surrogate, ahead, behind⟩)
    · exact ⟨0, first, rfl, surrogate, apart, by omega⟩
    · refine ⟨place + 1, unit, found, surrogate, mt pairAt_cons_succ.mp ahead, ?_⟩
      intro earlier next
      cases earlier with
      | zero => exact apart
      | succ earlier => exact mt pairAt_cons_succ.mp (behind earlier (by omega))

/-- The halves of a pair are not alone, and keep nothing behind them company. -/
theorem loneSurrogateIn_pair (isHigh : isHighSurrogate high = true)
    (isLow : isLowSurrogate low = true) :
    LoneSurrogateIn (high :: low :: rest) ↔ LoneSurrogateIn rest := by
  have pair : PairAt (high :: low :: rest) 0 := ⟨high, low, rfl, rfl, isHigh, isLow⟩
  have apart : ¬ PairAt (low :: rest) 0 :=
    not_pairAt_zero fun isHigh => absurd isHigh (not_high_of_low isLow)
  constructor
  · rintro ⟨place, unit, found, surrogate, ahead, behind⟩
    match place with
    | 0 => exact absurd pair ahead
    | 1 => exact absurd pair (behind 0 rfl)
    | place + 2 =>
      refine ⟨place, unit, found, surrogate, by simpa using ahead, ?_⟩
      rintro earlier rfl
      simpa using behind (earlier + 2) rfl
  · rintro ⟨place, unit, found, surrogate, ahead, behind⟩
    refine ⟨place + 2, unit, found, surrogate, by simpa using ahead, ?_⟩
    intro earlier next
    match earlier with
    | 0 => omega
    | 1 => simpa using apart
    | earlier + 2 => simpa using behind earlier (by omega)

theorem not_loneSurrogateIn_nil : ¬ LoneSurrogateIn [] := by
  rintro ⟨_, _, found, _⟩
  cases found

/-- Units spell no text just when a surrogate is alone among them. -/
theorem charsOfUnits_eq_none_iff {units : List UInt16} :
    charsOfUnits units = none ↔ LoneSurrogateIn units := by
  fun_induction charsOfUnits units with
  | case1 => simp [not_loneSurrogateIn_nil]
  | case2 unit surrogate =>
    rw [loneSurrogateIn_cons (not_pairAt_zero (by simp))]
    simpa [not_loneSurrogateIn_nil] using surrogate
  | case3 unit plain =>
    rw [loneSurrogateIn_cons (not_pairAt_zero (by simp))]
    simpa [not_loneSurrogateIn_nil] using plain
  | case4 unit next rest isHigh isLow ih =>
    rw [Option.map_eq_none_iff, ih, loneSurrogateIn_pair isHigh isLow]
  | case5 unit next rest isHigh notLow =>
    rw [loneSurrogateIn_cons (not_pairAt_zero (by simp [notLow]))]
    simp [isHigh]
  | case6 unit next rest notHigh isLow =>
    rw [loneSurrogateIn_cons (not_pairAt_zero (absurd · notHigh))]
    simp [isLow]
  | case7 unit next rest notHigh notLow ih =>
    rw [Option.map_eq_none_iff, ih, loneSurrogateIn_cons (not_pairAt_zero (absurd · notHigh))]
    simp [notHigh, notLow]

end LoneSurrogates

namespace UnitString

/-- The units of a text read back as the text. -/
theorem toText?_ofText (text : String) : (ofText text).toText? = some text := by
  simp [ofText, toText?, charsOfUnits_flatMap]

/-- A unit string that reads as a text is the unit form of that text. -/
theorem ofText_of_toText? {value : UnitString} {text : String}
    (read : value.toText? = some text) : ofText text = value := by
  obtain ⟨chars, decoded, rfl⟩ := Option.map_eq_some_iff.mp read
  simp [ofText, flatMap_of_charsOfUnits decoded]

theorem toText?_eq_none_iff {value : UnitString} :
    value.toText? = none ↔ LoneSurrogateIn value.units := by
  rw [toText?, Option.map_eq_none_iff, charsOfUnits_eq_none_iff]

end UnitString

end LiteralRecovery
