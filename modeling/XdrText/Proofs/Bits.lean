import Mathlib.Algebra.Group.Nat.Defs
import Mathlib.Data.List.Induction
import XdrText.Bytes

/-!
# XdrText — bits and the numbers they spell

Bits spell a number below the power of two of their count, and that number has these bits
(`bitsOf_ofBits`, `ofBits_bitsOf`).
-/

namespace XdrText

@[simp] theorem length_bitsOf : ∀ {k n : Nat}, (bitsOf k n).length = k
  | 0, _ => rfl
  | _ + 1, _ => congrArg Nat.succ length_bitsOf

/-- The last bit of a number tells whether it is odd, and the others are those of its half. -/
theorem bitsOf_concat (n : Nat) : ∀ k : Nat, bitsOf (k + 1) n = bitsOf k (n / 2) ++ [n.testBit 0]
  | 0 => rfl
  | k + 1 => by
      rw [bitsOf, bitsOf_concat n k, bitsOf, Nat.testBit_succ]
      rfl

/-- One more bit doubles the number and adds the bit. -/
theorem ofBits_concat (w : List Bool) (b : Bool) : ofBits (w ++ [b]) = 2 * ofBits w + b.toNat := by
  simp [ofBits, List.foldl_append]

/-- `k` bits are a number below `2 ^ k`. -/
theorem ofBits_lt (w : List Bool) : ofBits w < 2 ^ w.length := by
  induction w using List.reverseRecOn with
  | nil => decide
  | append_singleton w b ih =>
      have bit : b.toNat ≤ 1 := b.toNat_le
      rw [ofBits_concat, List.length_append, List.length_singleton, Nat.pow_succ]
      omega

/-- Bits are those of their number, in as many places. -/
theorem bitsOf_ofBits (w : List Bool) : bitsOf w.length (ofBits w) = w := by
  induction w using List.reverseRecOn with
  | nil => rfl
  | append_singleton w b ih =>
      have half : (2 * ofBits w + b.toNat) / 2 = ofBits w := by
        have bit : b.toNat ≤ 1 := b.toNat_le
        omega
      have last : (2 * ofBits w + b.toNat).testBit 0 = b := by
        cases b <;> simp [Nat.testBit_zero]
      rw [ofBits_concat, List.length_append, List.length_singleton, bitsOf_concat, half, ih, last]

/-- A number that fits into `k` places is that of its bits. -/
theorem ofBits_bitsOf : ∀ {k n : Nat}, n < 2 ^ k → ofBits (bitsOf k n) = n
  | 0, n, h => by
      rw [Nat.pow_zero, Nat.lt_one_iff] at h
      rw [h]
      rfl
  | k + 1, n, h => by
      have half : n / 2 < 2 ^ k := by
        rw [Nat.pow_succ] at h
        omega
      have last : (n.testBit 0).toNat = n % 2 := by
        rw [Nat.testBit_zero]
        rcases Nat.mod_two_eq_zero_or_one n with h | h <;> simp [h]
      rw [bitsOf_concat, ofBits_concat, ofBits_bitsOf half, last]
      omega

/-! ### Bytes -/

/-- A byte is the number of its eight bits. -/
theorem ofBits_byte (x : UInt8) : UInt8.ofNat (ofBits (bitsOf 8 x.toNat)) = x := by
  rw [ofBits_bitsOf x.toNat_lt, UInt8.ofNat_toNat]

/-- Eight bits are those of a byte. -/
theorem bitsOf_byte {w : List Bool} (h : w.length = 8) :
    bitsOf 8 (UInt8.ofNat (ofBits w)).toNat = w := by
  have byte : ofBits w < 2 ^ 8 := h ▸ ofBits_lt w
  rw [UInt8.toNat_ofNat_of_lt' byte, ← h]
  exact bitsOf_ofBits w

namespace Bytes

@[simp] theorem bits_nil : bits [] = [] := rfl

@[simp] theorem bits_cons (x : UInt8) (b : Bytes) :
    bits (x :: b) = bitsOf 8 x.toNat ++ bits b := rfl

/-- The bits of a byte string are those of its parts, one after the other. -/
@[simp] theorem bits_append (a b : Bytes) : bits (a ++ b) = bits a ++ bits b :=
  List.flatMap_append

/-- There are eight bits to a byte. -/
theorem length_bits (b : Bytes) : (bits b).length = 8 * b.length := by
  induction b with
  | nil => rfl
  | cons x b ih =>
      rw [bits_cons, List.length_append, length_bitsOf, ih, List.length_cons]
      omega

end Bytes

end XdrText
