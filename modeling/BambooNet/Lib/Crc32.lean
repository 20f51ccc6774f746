import BambooNet.Lib.Bytes

/-!
# CRC-32

The checksum of zlib and of ZIP archives: the reflected polynomial 0xedb88320, with the register
inverted before and after.
-/

namespace BambooNet

/-- One bit out of the register. -/
def crcStep (c : UInt32) : UInt32 := if c &&& 1 = 1 then c >>> 1 ^^^ 0xedb88320 else c >>> 1

def crcByte (c : UInt32) (b : UInt8) : UInt32 := crcStep^[8] (c ^^^ b.toUInt32)

def crc32 (bytes : Bytes) : UInt32 := bytes.foldl crcByte 0xffffffff ^^^ 0xffffffff

/-- The check value of the polynomial. -/
example : crc32 (ascii "123456789") = 0xcbf43926 := by decide +kernel

end BambooNet
