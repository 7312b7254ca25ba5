/-! String constants as the virtual machine sees them: sequences of UTF-16
code units. Masking works unit by unit, so a value may hold surrogates without
a partner until it is turned into text again. -/
namespace LiteralRecovery

/-- The UTF-16 form of one character: one unit, or a surrogate pair. -/
def utf16Units (c : Char) : List UInt16 :=
  if c.toNat < 0x10000 then [c.toNat.toUInt16]
  else
    let offset := c.toNat - 0x10000
    [(0xD800 + offset / 0x400).toUInt16, (0xDC00 + offset % 0x400).toUInt16]

/-- First half of a surrogate pair. -/
def isHighSurrogate (unit : UInt16) : Bool := 0xD800 ≤ unit && unit < 0xDC00

/-- Second half of a surrogate pair. -/
def isLowSurrogate (unit : UInt16) : Bool := 0xDC00 ≤ unit && unit < 0xE000

/-- The character a surrogate pair stands for. -/
def charOfPair (high low : UInt16) : Char :=
  Char.ofNat (0x10000 + (high.toNat - 0xD800) * 0x400 + (low.toNat - 0xDC00))

/-- Characters of a unit sequence. There are none for a sequence that holds a
surrogate outside a high-low pair. -/
def charsOfUnits : List UInt16 → Option (List Char)
  | [] => some []
  | [unit] =>
    if isHighSurrogate unit || isLowSurrogate unit then none
    else some [Char.ofNat unit.toNat]
  | unit :: next :: rest =>
    if isHighSurrogate unit then
      if isLowSurrogate next then (charsOfUnits rest).map (charOfPair unit next :: ·) else none
    else if isLowSurrogate unit then none
    else (charsOfUnits (next :: rest)).map (Char.ofNat unit.toNat :: ·)

/-- A string constant, kept as its code units. -/
structure UnitString where
  units : List UInt16
deriving DecidableEq

namespace UnitString

/-- The unit form of a text. -/
def ofText (text : String) : UnitString := ⟨text.toList.flatMap utf16Units⟩

/-- The text of a unit string, if every surrogate is part of a pair. -/
def toText? (value : UnitString) : Option String :=
  (charsOfUnits value.units).map String.ofList

/-- Every unit combined with the low 16 bits of `key`. -/
def mask (value : UnitString) (key : Int32) : UnitString :=
  ⟨value.units.map (· ^^^ key.toUInt32.toUInt16)⟩

end UnitString

/-- The virtual machine's string hash: the units as digits to base 31, in
32-bit arithmetic that wraps. -/
def textHash (text : String) : Int32 :=
  (UnitString.ofText text).units.foldl (fun hash unit => hash * 31 + Int32.ofNat unit.toNat) 0

end LiteralRecovery
