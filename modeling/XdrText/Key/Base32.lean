import XdrText.Bytes

/-!
# XdrText — base 32

Each five bits of a byte string are one of 32 characters; a last group that is short is filled up
with zero bits, and there is no padding.  Reading is strict: lower case is refused, and so is a
text whose bits beyond the last full byte are five or more, or are not all zero.
-/

namespace XdrText.Key.Base32

def alphabet : List Char := "ABCDEFGHIJKLMNOPQRSTUVWXYZ234567".toList

/-- The character for five bits. -/
def digit (n : Nat) : Char :=
  alphabet.getD n 'A'

/-- The five bits that a character stands for. -/
def value? (c : Char) : Option Nat :=
  alphabet.findIdx? (· == c)

/-- The numbers that groups of five bits spell, the last group filled up with zeros. -/
def quintets : List Bool → List Nat
  | a :: b :: c :: d :: e :: rest => ofBits [a, b, c, d, e] :: quintets rest
  | [] => []
  | short => [ofBits (short ++ List.replicate (5 - short.length) false)]

/-- The bytes that groups of eight bits spell, and the bits that are left. -/
def octets : List Bool → Bytes × List Bool
  | a :: b :: c :: d :: e :: f :: g :: h :: rest =>
    let (bytes, short) := octets rest
    (UInt8.ofNat (ofBits [a, b, c, d, e, f, g, h]) :: bytes, short)
  | short => ([], short)

/-- The text of bytes. -/
def encode (b : Bytes) : List Char :=
  (quintets b.bits).map digit

/-- The bytes of a text, if it is one that bytes have. -/
def decode? (s : List Char) : Option Bytes := do
  let values ← s.mapM value?
  let (bytes, short) := octets (values.flatMap (bitsOf 5))
  if short.length < 5 ∧ short.all (· == false) then some bytes else none

end XdrText.Key.Base32
