/-!
# XdrText — bytes

Byte strings are lists of bytes; a `Block n` is a byte string of exactly `n` bytes.  Cutting a
byte string and turning one into a block can fail, and say so by their types.
-/

namespace XdrText

abbrev Bytes := List UInt8

/-- Exactly `n` bytes: a key, a hint, an asset code. -/
@[ext] structure Block (n : Nat) where
  bytes : Bytes
  length_bytes : bytes.length = n
  deriving DecidableEq

namespace Block

def zero (n : Nat) : Block n :=
  ⟨List.replicate n 0, List.length_replicate⟩

/-- Byte strings of another length are no block. -/
def ofBytes? (n : Nat) (b : Bytes) : Option (Block n) :=
  if h : b.length = n then some ⟨b, h⟩ else none

end Block

namespace Bytes

/-- The first `n` bytes and the others; nothing when there are fewer than `n`. -/
def split? (n : Nat) (b : Bytes) : Option (Bytes × Bytes) :=
  if n ≤ b.length then some (b.take n, b.drop n) else none

/-- The number that bytes spell, most significant byte first. -/
def toNat (b : Bytes) : Nat :=
  b.foldl (fun n x => 256 * n + x.toNat) 0

/-- The last `k` base-256 digits of `n`, most significant byte first. -/
def ofNat : (k : Nat) → (n : Nat) → Bytes
  | 0, _ => []
  | k + 1, n => ofNat k (n / 256) ++ [UInt8.ofNat n]

end Bytes

/-- The last `k` bits of `n`, most significant bit first. -/
def bitsOf : (k : Nat) → (n : Nat) → List Bool
  | 0, _ => []
  | k + 1, n => n.testBit k :: bitsOf k n

/-- The number that bits spell, most significant bit first. -/
def ofBits (bits : List Bool) : Nat :=
  bits.foldl (fun n b => 2 * n + b.toNat) 0

/-- The bits of a byte string, in the order of its bytes. -/
def Bytes.bits (b : Bytes) : List Bool :=
  b.flatMap fun x => bitsOf 8 x.toNat

end XdrText
