import XdrText.Text.Quoted
import XdrText.Text.Utf8

/-!
# XdrText — hexadecimal

Bytes are written as two lower-case digits each.  Reading accepts both cases, refuses a text of
odd length first, and then the first character that is no digit.  Lengths and positions count the
bytes of the text.
-/

namespace XdrText.Text.Hex

/-- Why a text is not hexadecimal. -/
inductive Fault where
  | odd
  /-- The byte at a position of the text is no digit. -/
  | badDigit (byte : UInt8) (position : Nat)
  deriving DecidableEq, Repr

def Fault.message : Fault → String
  | .odd => "Odd number of digits"
  | .badDigit b i =>
    "Invalid character " ++ Quoted.char (Char.ofUInt8 b) ++ " at position " ++ Nat.repr i

/-- The value of a hexadecimal digit of either case. -/
def value? (c : Char) : Option Nat :=
  let n := c.toNat
  if 0x30 ≤ n ∧ n ≤ 0x39 then some (n - 0x30)
  else if 0x41 ≤ n ∧ n ≤ 0x46 then some (n - 0x37)
  else if 0x61 ≤ n ∧ n ≤ 0x66 then some (n - 0x57)
  else none

/-- The byte that two digits spell. -/
def byte? (high low : Char) : Option UInt8 := do
  return UInt8.ofNat (16 * (← value? high) + (← value? low))

/-- A byte in two digits. -/
def ofByte (b : UInt8) : List Char :=
  [Nat.digitChar (b.toNat / 16), Nat.digitChar (b.toNat % 16)]

/-- Bytes in two digits each. -/
def encode (b : Bytes) : List Char :=
  b.flatMap ofByte

/-- The bytes spelt by pairs of digits, of which the first stands at `position`. -/
def decodePairs (position : Nat) : Bytes → Except Fault Bytes
  | [] => .ok []
  | [_] => .error .odd
  | high :: low :: rest =>
    match value? (Char.ofUInt8 high), value? (Char.ofUInt8 low) with
    | none, _ => .error (.badDigit high position)
    | some _, none => .error (.badDigit low (position + 1))
    | some h, some l => (UInt8.ofNat (16 * h + l) :: ·) <$> decodePairs (position + 2) rest

/-- The bytes that a text spells, if it has an even number of digits. -/
def decode (s : List Char) : Except Fault Bytes :=
  let digits := Utf8.encode s
  if digits.length % 2 = 1 then .error .odd else decodePairs 0 digits

end XdrText.Text.Hex
