import LiteralRecovery.Bytes

/-! Text in class files. An entry is either standard UTF-8 or, failing that, the
virtual machine's own form of it, where the null character takes two bytes and
a supplementary character is a pair of three-byte surrogates. Text is written
in standard form but for the null character. -/
namespace LiteralRecovery.Utf8

/-- A byte that continues a character. -/
def continues (byte : UInt8) : Bool := 0x80 ≤ byte && byte < 0xC0

def charOfTwo (a b : UInt8) : Char :=
  Char.ofNat (a.toNat % 0x20 * 0x40 + b.toNat % 0x40)

def charOfThree (a b c : UInt8) : Char :=
  Char.ofNat ((a.toNat % 0x10 * 0x40 + b.toNat % 0x40) * 0x40 + c.toNat % 0x40)

def charOfFour (a b c d : UInt8) : Char :=
  Char.ofNat (((a.toNat % 0x08 * 0x40 + b.toNat % 0x40) * 0x40 + c.toNat % 0x40) * 0x40 +
    d.toNat % 0x40)

/-- Two bytes that hold a character no single byte does. -/
def isTwo (a b : UInt8) : Bool := 0xC2 ≤ a && a < 0xE0 && continues b

/-- Three bytes that hold a character no shorter form does, surrogates apart. -/
def isThree (a b c : UInt8) : Bool :=
  0xE0 ≤ a && a < 0xF0 && continues b && continues c &&
    !(a == 0xE0 && b < 0xA0) && !(a == 0xED && 0xA0 ≤ b)

/-- Four bytes that hold a supplementary character. -/
def isFour (a b c d : UInt8) : Bool :=
  0xF0 ≤ a && a < 0xF5 && continues b && continues c && continues d &&
    !(a == 0xF0 && b < 0x90) && !(a == 0xF4 && 0x90 ≤ b)

def isHighHalf (a b c : UInt8) : Bool := a == 0xED && 0xA0 ≤ b && b < 0xB0 && continues c

def isLowHalf (a b c : UInt8) : Bool := a == 0xED && 0xB0 ≤ b && b < 0xC0 && continues c

/-- Standard UTF-8; characters are added in front of `done`. -/
def standardOnto (done : List Char) : Bytes → Option (List Char)
  | [] => some done.reverse
  | a :: rest =>
    if a < 0x80 then standardOnto (Char.ofNat a.toNat :: done) rest
    else match rest with
      | [] => none
      | b :: rest =>
        if isTwo a b then standardOnto (charOfTwo a b :: done) rest
        else match rest with
          | [] => none
          | c :: rest =>
            if isThree a b c then standardOnto (charOfThree a b c :: done) rest
            else match rest with
              | [] => none
              | d :: rest =>
                if isFour a b c d then standardOnto (charOfFour a b c d :: done) rest else none

/-- Whether a byte can follow the first one of a character that takes three
bytes or more. -/
def isSecond (a b : UInt8) : Bool := isThree a b 0x80 || isFour a b 0x80 0x80

/-- Standard UTF-8, where whatever is no character becomes a replacement
character. What begins like a character is replaced as a whole, as far as it
goes; characters are added in front of `done`. -/
def lossyOnto (done : List Char) : Bytes → List Char
  | [] => done.reverse
  | [a] => lossyOnto ((if a < 0x80 then Char.ofNat a.toNat else '\uFFFD') :: done) []
  | a :: b :: rest =>
    if a < 0x80 then lossyOnto (Char.ofNat a.toNat :: done) (b :: rest)
    else if isTwo a b then lossyOnto (charOfTwo a b :: done) rest
    else if !isSecond a b then lossyOnto ('\uFFFD' :: done) (b :: rest)
    else match rest with
      | [] => lossyOnto ('\uFFFD' :: done) []
      | c :: rest =>
        if isThree a b c then lossyOnto (charOfThree a b c :: done) rest
        else if !continues c || a < 0xF0 then lossyOnto ('\uFFFD' :: done) (c :: rest)
        else match rest with
          | [] => lossyOnto ('\uFFFD' :: done) []
          | d :: rest =>
            if isFour a b c d then lossyOnto (charOfFour a b c d :: done) rest
            else lossyOnto ('\uFFFD' :: done) (d :: rest)
termination_by bytes => bytes.length

def decodeLossy (bytes : Bytes) : String := String.ofList (lossyOnto [] bytes)

/-- The virtual machine's form; characters are added in front of `done`. Either
half of a surrogate pair reads as the null character. -/
def modifiedOnto (done : List Char) : Bytes → Option (List Char)
  | [] => some done.reverse
  | a :: rest =>
    if 0 < a && a < 0x80 then modifiedOnto (Char.ofNat a.toNat :: done) rest
    else match rest with
      | [] => none
      | b :: rest =>
        if a == 0xC0 && b == 0x80 then modifiedOnto ('\x00' :: done) rest
        else if isTwo a b then modifiedOnto (charOfTwo a b :: done) rest
        else match rest with
          | [] => none
          | c :: rest =>
            if isThree a b c then modifiedOnto (charOfThree a b c :: done) rest
            else if isHighHalf a b c then
              match rest with
              | d :: e :: f :: rest =>
                if isLowHalf d e f then modifiedOnto ('\x00' :: '\x00' :: done) rest else none
              | _ => none
            else none

/-- The text of an entry, in whichever form it is. -/
def decode? (bytes : Bytes) : Option String :=
  ((standardOnto [] bytes).or (modifiedOnto [] bytes)).map String.ofList

/-- The bytes of a character in an entry. -/
def encodeChar (c : Char) : Bytes :=
  let code := c.toNat
  if code = 0 then [0xC0, 0x80]
  else if code < 0x80 then [code.toUInt8]
  else if code < 0x800 then [(0xC0 + code / 0x40).toUInt8, (0x80 + code % 0x40).toUInt8]
  else if code < 0x10000 then
    [(0xE0 + code / 0x1000).toUInt8, (0x80 + code / 0x40 % 0x40).toUInt8,
     (0x80 + code % 0x40).toUInt8]
  else
    [(0xF0 + code / 0x40000).toUInt8, (0x80 + code / 0x1000 % 0x40).toUInt8,
     (0x80 + code / 0x40 % 0x40).toUInt8, (0x80 + code % 0x40).toUInt8]

/-- The bytes of an entry. -/
def encode (text : String) : Bytes := text.toList.flatMap encodeChar

end LiteralRecovery.Utf8
