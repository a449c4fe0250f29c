/-
# CRC-32

The checksum of archive entries: the remainder of the bytes, read as a polynomial
with its lowest bits first, on division by `polynomial`, with all bits flipped
before and after.
-/

namespace Loadout
namespace Crc32

/-- The divisor, with the bits in reverse. -/
def polynomial : UInt32 := 0xEDB88320

/-- One step of the division. -/
def shift (c : UInt32) : UInt32 := if c &&& 1 = 1 then (c >>> 1) ^^^ polynomial else c >>> 1

/-- Several steps of the division. -/
def shifts : Nat → UInt32 → UInt32
  | 0, c => c
  | n + 1, c => shifts n (shift c)

/-- Takes one byte into the remainder. -/
def feed (c : UInt32) (byte : UInt8) : UInt32 := shifts 8 (c ^^^ byte.toUInt32)

/-- The checksum of bytes. -/
def checksum (bytes : ByteArray) : UInt32 := ~~~bytes.data.toList.foldl feed 0xFFFFFFFF

/-- The checksum of `123456789`, by which the variants of the code are told apart. -/
example : checksum ⟨#[49, 50, 51, 52, 53, 54, 55, 56, 57]⟩ = 0xCBF43926 := by
  decide +kernel

end Crc32
end Loadout
