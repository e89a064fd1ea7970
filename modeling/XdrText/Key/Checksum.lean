import XdrText.Bytes

/-!
# XdrText — the checksum of a key

CRC-16 with the polynomial `x ^ 16 + x ^ 12 + x ^ 5 + 1`, an initial register of zero and the bits
taken most significant first (the variant called XMODEM).
-/

namespace XdrText.Key.Checksum

/-- The polynomial without its highest term. -/
def polynomial : BitVec 16 := 0x1021#16

/-- The register after one more bit. -/
def step (register : BitVec 16) (bit : Bool) : BitVec 16 :=
  if register.msb ^^ bit then (register <<< 1) ^^^ polynomial else register <<< 1

def crc16 (b : Bytes) : BitVec 16 :=
  b.bits.foldl step 0#16

/-- The checksum of a byte string as two bytes, the less significant first. -/
def trailer (b : Bytes) : Bytes :=
  let crc := (crc16 b).toNat
  [UInt8.ofNat crc, UInt8.ofNat (crc / 256)]

end XdrText.Key.Checksum
