import ObjectStore.Bytes

/-!
# CRC-32

The checksum that closes every record of a batch log. Two definitions stand side by side: `bitwise`
is the standard one (reflected polynomial `0xEDB88320`, register started at all ones, each byte
xored into the low bits and shifted out bit by bit, complement at the end), and `checksum` takes a
whole byte at a time from a table of 256 words. The log uses `checksum`.
-/

namespace ObjectStore.Crc32

/-- The reflected polynomial. -/
def polynomial : UInt32 := 0xEDB88320

/-- Shifts one bit out of the register. -/
def shiftBit (register : UInt32) : UInt32 :=
  if register &&& 1 = 1 then (register >>> 1) ^^^ polynomial else register >>> 1

/-- Shifts `n` bits out of the register. -/
def shiftBits : (n : Nat) → UInt32 → UInt32
  | 0, register => register
  | n + 1, register => shiftBits n (shiftBit register)

/-! ## One bit at a time -/

/-- Takes one byte into the register, bit by bit. -/
def feedBits (register : UInt32) (b : UInt8) : UInt32 :=
  shiftBits 8 (register ^^^ b.toUInt32)

/-- The checksum of a byte string, computed bit by bit. -/
def bitwise (bs : Bytes) : UInt32 :=
  ~~~(bs.foldl feedBits 0xFFFFFFFF)

/-! ## One byte at a time -/

/-- What eight shifts make of each register that holds a single byte. -/
def table : Vector UInt32 256 :=
  Vector.ofFn fun i => shiftBits 8 (UInt32.ofNat i)

/-- Takes one byte into the register by one look at the table. -/
def feedByte (register : UInt32) (b : UInt8) : UInt32 :=
  (register >>> 8) ^^^ table[(register.toUInt8 ^^^ b).toFin]

/-- The checksum of a byte string. -/
def checksum (bs : Bytes) : UInt32 :=
  ~~~(bs.foldl feedByte 0xFFFFFFFF)

end ObjectStore.Crc32
