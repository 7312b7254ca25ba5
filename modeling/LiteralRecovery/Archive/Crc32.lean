import LiteralRecovery.Bytes

/-! The checksum of archive members: the remainder of the data by the reversed
polynomial `0xEDB88320`, complemented before and after. -/
namespace LiteralRecovery.Crc32

/-- One bit of the division. -/
def shift (remainder : UInt32) : UInt32 :=
  if remainder &&& 1 == 1 then (remainder >>> 1) ^^^ 0xEDB88320 else remainder >>> 1

/-- One byte of the division. -/
def feed (remainder : UInt32) (byte : UInt8) : UInt32 :=
  shift (shift (shift (shift (shift (shift (shift (shift (remainder ^^^ byte.toUInt32))))))))

def checksum (data : Bytes) : UInt32 := data.foldl feed 0xFFFFFFFF ^^^ 0xFFFFFFFF

end LiteralRecovery.Crc32
