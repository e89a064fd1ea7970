import XdrText.Proofs.Canonical

/-!
# XdrText — slips in copying a key

The register of the checksum is linear in the bits that pass through it, and nothing but zeros
leaves it at zero when they are sixteen at most (`Key.Checksum.foldl_burst`).  Since the checksum
stands behind the text with its less significant byte first, a burst that starts before the checksum
and ends in it needs a look at the bits that it puts there (`Key.Checksum.straddle`).

**Slips** (`Key.StrKey.decode_slip`).  Two neighbouring characters are ten bits.  So a key with a
character replaced by another one, or with two different neighbours exchanged, is the text of no
key.
-/

namespace XdrText

/-! ### Differences of bits -/

/-- The low bits of a number are those of its remainder. -/
theorem bitsOf_mod {n m : Nat} : ∀ {k : Nat}, k ≤ m → bitsOf k (n % 2 ^ m) = bitsOf k n
  | 0, _ => rfl
  | k + 1, h => by
      have below : k < m := h
      rw [bitsOf, bitsOf, Nat.testBit_mod_two_pow, bitsOf_mod (Nat.le_of_lt below),
        decide_eq_true below, Bool.true_and]

/-- Where two numbers are put together by exclusive or, so are their bits. -/
theorem bitsOf_xor (n m : Nat) : ∀ k : Nat,
    bitsOf k (n ^^^ m) = List.zipWith xor (bitsOf k n) (bitsOf k m)
  | 0 => rfl
  | k + 1 => by
      rw [bitsOf, bitsOf, bitsOf, Nat.testBit_xor, bitsOf_xor n m k]
      rfl

/-- Two rows of bits are the same where no place tells them apart. -/
theorem eq_of_zipWith_xor {w w' : List Bool} (length : w.length = w'.length)
    (h : true ∉ List.zipWith xor w w') : w = w' := by
  induction w generalizing w' with
  | nil => exact (List.length_eq_zero_iff.mp length.symm).symm
  | cons b w ih =>
      cases w' with
      | nil => cases length
      | cons b' w' =>
          rw [List.zipWith_cons_cons, List.mem_cons, not_or] at h
          have same : b = b' := by
            cases b <;> cases b' <;> simp_all
          rw [same, ih (Nat.succ.inj length) h.2]

theorem notMem_zipWith_xor_self (w : List Bool) : true ∉ List.zipWith xor w w := by
  simp [List.zipWith_self]

namespace Key

/-! ### The register -/

namespace Checksum

/-- What is put into the register for a bit that leaves it. -/
def feedback (b : Bool) : BitVec 16 :=
  if b then polynomial else 0#16

/-- A step moves the register up by one and puts the polynomial in for a bit that leaves it. -/
theorem step_eq (r : BitVec 16) (b : Bool) : step r b = (r <<< 1) ^^^ feedback (r.msb ^^ b) := by
  simp only [step, feedback]
  split <;> simp

/-- Two registers may be put together before a step or after it. -/
theorem step_xor (r r' : BitVec 16) (b b' : Bool) :
    step (r ^^^ r') (b ^^ b') = step r b ^^^ step r' b' := by
  have linear : ∀ x y : Bool, feedback (x ^^ y) = feedback x ^^^ feedback y := by decide
  have bits : ((r ^^^ r').msb ^^ (b ^^ b')) = ((r.msb ^^ b) ^^ (r'.msb ^^ b')) := by
    rw [BitVec.msb_xor, Bool.xor_assoc, Bool.xor_assoc, Bool.xor_left_comm r'.msb]
  rw [step_eq, step_eq, step_eq, bits, linear, BitVec.shiftLeft_xor_distrib]
  ac_rfl

/-- The last bit of the register is the one that left it. -/
theorem getLsbD_step_zero (r : BitVec 16) (b : Bool) : (step r b).getLsbD 0 = (r.msb ^^ b) := by
  rw [step_eq]
  cases (r.msb ^^ b) <;> simp [feedback, polynomial]

theorem eq_zero_of_step {r : BitVec 16} (h : step r false = 0#16) : r = 0#16 := by
  have msb : r.msb = false := by
    have last := getLsbD_step_zero r false
    rw [h] at last
    simpa using last.symm
  have shifted : (r <<< 1).toNat = 0 := by
    rw [step_eq, msb] at h
    simpa [feedback] using congrArg BitVec.toNat h
  rw [BitVec.msb_eq_decide, decide_eq_false_iff_not] at msb
  rw [BitVec.toNat_shiftLeft, Nat.shiftLeft_eq] at shifted
  refine BitVec.eq_of_toNat_eq ?_
  rw [BitVec.toNat_ofNat]
  omega

/-- Two registers may be put together before the bits pass through or after that. -/
theorem foldl_xor : ∀ {w w' : List Bool} {r r' : BitVec 16}, w.length = w'.length →
    (List.zipWith xor w w').foldl step (r ^^^ r') = w.foldl step r ^^^ w'.foldl step r'
  | [], [], _, _, _ => rfl
  | b :: w, b' :: w', r, r', length => by
      rw [List.zipWith_cons_cons, List.foldl_cons, List.foldl_cons, List.foldl_cons, ← foldl_xor
        (Nat.succ.inj length)]
      exact congrArg (List.foldl step · _) (step_xor r r' b b')

/-- The bits that pass through a register tell from which register they started. -/
theorem foldl_injective {w : List Bool} {r r' : BitVec 16} (h : w.foldl step r = w.foldl step r') :
    r = r' := by
  induction w generalizing r r' with
  | nil => exact h
  | cons b w ih =>
      have first : step r b = step r' b := ih h
      have diff : step (r ^^^ r') false = 0#16 := by
        rw [← BitVec.xor_self (x := step r' b), ← first, ← Bool.xor_self b, step_xor, first]
      exact BitVec.xor_eq_zero_iff.mp (eq_zero_of_step diff)

/-- A bit among the lowest ones moves up by one, or the lowest one is put in again. -/
theorem exists_low_step {r : BitVec 16} {b : Bool} {i : Nat} (hi : i + 1 < 16)
    (low : ∃ j ≤ i, r.getLsbD j) : ∃ j ≤ i + 1, (step r b).getLsbD j := by
  obtain ⟨j, hj, set⟩ := low
  cases left : (r.msb ^^ b) with
  | true => exact ⟨0, Nat.zero_le _, (getLsbD_step_zero r b).trans left⟩
  | false =>
      refine ⟨j + 1, by omega, ?_⟩
      rw [step_eq, left]
      simp [feedback, set, show j + 1 < 16 by omega]

/-- A bit among the lowest ones stays in the register while it has room to move up. -/
theorem foldl_ne_zero {w : List Bool} {r : BitVec 16} {i : Nat} (length : i + w.length < 16)
    (low : ∃ j ≤ i, r.getLsbD j) : w.foldl step r ≠ 0#16 := by
  induction w generalizing r i with
  | nil =>
      rintro rfl
      obtain ⟨j, -, set⟩ := low
      simp at set
  | cons b w ih =>
      rw [List.length_cons] at length
      exact ih (by omega) (exists_low_step (by omega) low)

/-- A burst of sixteen bits at most does not leave the register at zero. -/
theorem notMem_of_foldl {w : List Bool} (length : w.length ≤ 16) (h : w.foldl step 0#16 = 0#16) :
    true ∉ w := by
  induction w with
  | nil => simp
  | cons b w ih =>
      rw [List.length_cons] at length
      cases b with
      | true =>
          have first : (step 0#16 true).getLsbD 0 := by decide
          exact absurd h (foldl_ne_zero (w := w) (i := 0) (by omega) ⟨0, Nat.le_refl 0, first⟩)
      | false => simpa using ih (by omega) h

/-- Bits that differ within sixteen places leave different registers. -/
theorem foldl_burst {w w' : List Bool} {r : BitVec 16} (same : w.length = w'.length)
    (length : w.length ≤ 16) (h : w.foldl step r = w'.foldl step r) : w = w' := by
  have diff : (List.zipWith xor w w').foldl step 0#16 = 0#16 := by
    rw [← BitVec.xor_self (x := r), foldl_xor same, h, BitVec.xor_self, BitVec.xor_self]
  refine eq_of_zipWith_xor same (notMem_of_foldl ?_ diff)
  rw [List.length_zipWith]
  omega

/-! ### The trailer -/

/-- The bits of a register in the order of the trailer. -/
def spell (r : BitVec 16) : List Bool :=
  bitsOf 8 r.toNat ++ bitsOf 8 (r.toNat / 256)

theorem length_spell (r : BitVec 16) : (spell r).length = 16 := by
  simp [spell]

/-- The bits of a trailer are those of the register after the bytes. -/
theorem bits_trailer (b : Bytes) : (trailer b).bits = spell (b.bits.foldl step 0#16) := by
  have byte : ∀ n : Nat, bitsOf 8 (UInt8.ofNat n).toNat = bitsOf 8 n :=
    fun n => bitsOf_mod (Nat.le_refl 8)
  simp only [trailer, Bytes.bits_cons, Bytes.bits_nil, byte, List.append_nil]
  rfl

theorem spell_xor (r r' : BitVec 16) :
    spell (r ^^^ r') = List.zipWith xor (spell r) (spell r') := by
  have high : ∀ n : Nat, n / 256 = n >>> 8 := fun n => (Nat.shiftRight_eq_div_pow n 8).symm
  simp only [spell, high, BitVec.toNat_xor, Nat.shiftRight_xor_distrib, bitsOf_xor]
  rw [List.zipWith_append (by simp)]

theorem spell_injective {r r' : BitVec 16} (h : spell r = spell r') : r = r' := by
  obtain ⟨low, high⟩ := List.append_inj h (by simp)
  have digits : ∀ {n m : Nat}, bitsOf 8 n = bitsOf 8 m → n % 2 ^ 8 = m % 2 ^ 8 := by
    intro n m h
    rw [← ofBits_bitsOf (Nat.mod_lt n (by decide)), bitsOf_mod (Nat.le_refl 8), h,
      ← bitsOf_mod (Nat.le_refl 8), ofBits_bitsOf (Nat.mod_lt m (by decide))]
  have low := digits low
  have high := digits high
  refine BitVec.eq_of_toNat_eq ?_
  have := r.isLt
  have := r'.isLt
  omega

/-- Whatever bits go on, the register keeps a bit set that stands in the trailer behind those that a
window reaches; the window has room for `k` bits more. -/
def outreaches : (k : Nat) → BitVec 16 → Bool
  | 0, r => (spell r).contains true
  | k + 1, r =>
    ((spell r).drop (k + 1)).contains true && outreaches k (step r false) &&
      outreaches k (step r true)

/-- The polynomial reaches beyond every window of ten bits. -/
theorem outreaches_polynomial : outreaches 9 polynomial = true := by decide +kernel

/-- A register that outreaches a window shows in the trailer behind it. -/
theorem mem_of_outreaches {w : List Bool} {k : Nat} {r : BitVec 16}
    (h : outreaches (w.length + k) r = true) : true ∈ (spell (w.foldl step r)).drop k := by
  induction w generalizing r with
  | nil =>
      rw [List.length_nil, Nat.zero_add] at h
      cases k with
      | zero => exact List.contains_iff_mem.mp h
      | succ k =>
          simp only [outreaches, Bool.and_eq_true] at h
          exact List.contains_iff_mem.mp h.1.1
  | cons b w ih =>
      rw [List.length_cons, Nat.add_right_comm] at h
      simp only [outreaches, Bool.and_eq_true] at h
      cases b with
      | false => exact ih h.1.2
      | true => exact ih h.2

/-- What a burst of ten bits puts into the register before the trailer shows in the trailer behind
the bits that the burst reaches there. -/
theorem straddle {w : List Bool} {k : Nat} (length : w.length + k ≤ 10)
    (h : true ∉ (spell (w.foldl step 0#16)).drop k) : true ∉ w := by
  induction w with
  | nil => simp
  | cons b w ih =>
      rw [List.length_cons] at length
      cases b with
      | false => simpa using ih (by omega) h
      | true =>
          -- the first bit that is set fills the register with the polynomial
          obtain ⟨k', hk'⟩ : ∃ k', 9 = w.length + (k + k') := ⟨9 - w.length - k, by omega⟩
          have shown := mem_of_outreaches (hk' ▸ outreaches_polynomial)
          rw [← List.drop_drop] at shown
          exact absurd (List.mem_of_mem_drop shown) h

/-- Two bursts before the trailer are the same where the trailers agree behind the window. -/
theorem straddle_eq {w w' : List Bool} {r : BitVec 16} {k : Nat} (same : w.length = w'.length)
    (length : w.length + k ≤ 10)
    (h : (spell (w.foldl step r)).drop k = (spell (w'.foldl step r)).drop k) : w = w' := by
  refine eq_of_zipWith_xor same (straddle (k := k) (by rw [List.length_zipWith]; omega) ?_)
  rw [← BitVec.xor_self (x := r), foldl_xor same, spell_xor, List.drop_zipWith, h]
  exact notMem_zipWith_xor_self _

/-- Where a window ends in the trailer, what stands behind it tells what it has before the
trailer. -/
theorem eq_of_straddle {before c c' e e' after z : List Bool} (hc : c.length = c'.length)
    (he : e.length = e'.length) (ten : c.length + e.length ≤ 10)
    (h : spell ((before ++ c).foldl step 0#16) ++ z = e ++ after)
    (h' : spell ((before ++ c').foldl step 0#16) ++ z = e' ++ after) : c ++ e = c' ++ e' := by
  have behind : ∀ {s e : List Bool}, s.length = 16 → e.length ≤ 16 → s ++ z = e ++ after →
      s.drop e.length ++ z = after := by
    intro s e sixteen le he
    rw [← List.drop_append_of_le_length (by omega), he, List.drop_left]
  have rest := behind (length_spell _) (by omega) h
  have rest' := behind (length_spell _) (by omega) h'
  rw [← he] at rest'
  have drops := List.append_cancel_right (rest.trans rest'.symm)
  rw [List.foldl_append, List.foldl_append] at drops
  obtain rfl := straddle_eq hc ten drops
  obtain ⟨rfl, -⟩ := List.append_inj (h.symm.trans h') he
  rfl

/-- Bits with their checksum behind them that differ in a window of ten bits at most are the
same. -/
theorem eq_of_window {b b' before w w' after z : List Bool} (length : b.length = b'.length)
    (h : b ++ (spell (b.foldl step 0#16) ++ z) = before ++ (w ++ after))
    (h' : b' ++ (spell (b'.foldl step 0#16) ++ z) = before ++ (w' ++ after))
    (same : w.length = w'.length) (ten : w.length ≤ 10) : w = w' := by
  rcases List.append_eq_append_iff.mp h with ⟨c, rfl, hc⟩ | ⟨c, rfl, hc⟩
  · -- the window is in the trailer, and what it checks is the same
    rw [List.append_assoc] at h'
    obtain ⟨rfl, hc'⟩ := List.append_inj h' length.symm
    exact List.append_cancel_right (List.append_cancel_left (hc.symm.trans hc'))
  rcases List.append_eq_append_iff.mp hc with ⟨a, rfl, rfl⟩ | ⟨e, rfl, hs⟩
  · -- the window is before the trailer, which is the same
    rw [← List.append_assoc w', ← List.append_assoc before] at h'
    obtain ⟨rfl, hs⟩ := List.append_inj h' (by simp [← length, same])
    have register := spell_injective (List.append_cancel_right hs)
    simp only [List.foldl_append] at register
    exact (foldl_burst same.symm (by omega) (foldl_injective register)).symm
  · -- the window ends in the trailer
    obtain ⟨c', e', rfl, hl⟩ : ∃ c' e', w' = c' ++ e' ∧ c.length = c'.length := by
      refine ⟨w'.take c.length, w'.drop c.length, (List.take_append_drop _ _).symm, ?_⟩
      rw [List.length_append] at same
      rw [List.length_take]
      omega
    rw [List.length_append] at ten
    rw [List.length_append, List.length_append, hl] at same
    rw [List.append_assoc, ← List.append_assoc before] at h'
    obtain ⟨rfl, hs'⟩ := List.append_inj h' (by simp [← length, hl])
    exact eq_of_straddle hl (Nat.add_left_cancel same) ten hs hs'

end Checksum

/-! ### Characters -/

namespace Base32

/-- The bits that a text spells. -/
def spelt (s : List Char) : List Bool :=
  s.flatMap fun c => bitsOf 5 ((value? c).getD 0)

theorem spelt_append (s t : List Char) : spelt (s ++ t) = spelt s ++ spelt t :=
  List.flatMap_append

theorem spelt_map_digit {ns : List Nat} (h : ∀ n ∈ ns, n < 32) :
    spelt (ns.map digit) = ns.flatMap (bitsOf 5) := by
  rw [spelt, List.flatMap_map]
  refine congrArg List.flatten (List.map_congr_left fun n hn => ?_)
  rw [value?_digit n (h n hn), Option.getD_some]

/-- A text spells the bytes that it encodes, and fewer than five zeros. -/
theorem spelt_encode (b : Bytes) :
    ∃ k < 5, spelt (encode b) = b.bits ++ List.replicate k false := by
  obtain ⟨below, k, hk, spelt⟩ := quintets_spec b.bits
  exact ⟨k, hk, (spelt_map_digit below).trans spelt⟩

/-- A part of a text is made of digits. -/
theorem exists_digits {b : Bytes} {before w after : List Char}
    (h : encode b = before ++ (w ++ after)) :
    ∃ ns : List Nat, (∀ n ∈ ns, n < 32) ∧ ns.map digit = w := by
  obtain ⟨below, -⟩ := quintets_spec b.bits
  obtain ⟨_, _, all, -, h⟩ := List.map_eq_append_iff.mp h
  obtain ⟨ns, _, rfl, hw, -⟩ := List.map_eq_append_iff.mp h
  refine ⟨ns, fun n hn => below n ?_, hw⟩
  rw [all]
  exact List.mem_append_right _ (List.mem_append_left _ hn)

end Base32

namespace StrKey

/-- Two keys whose texts differ in two neighbouring characters at most are the same. -/
theorem eq_of_window {v v' : Version} {payload payload' : Bytes} {before w w' after : List Char}
    (h : encode v payload = before ++ (w ++ after))
    (h' : encode v' payload' = before ++ (w' ++ after)) (same : w.length = w'.length)
    (two : w.length ≤ 2) : w = w' := by
  have bits : ∀ (v : Version) (payload : Bytes), ∃ k < 5, Base32.spelt (encode v payload) =
      Bytes.bits (v.byte :: payload) ++ (Checksum.spell ((Bytes.bits (v.byte :: payload)).foldl
        Checksum.step 0#16) ++ List.replicate k false) := by
    intro v payload
    obtain ⟨k, hk, spelt⟩ :=
      Base32.spelt_encode (v.byte :: payload ++ Checksum.trailer (v.byte :: payload))
    refine ⟨k, hk, ?_⟩
    rw [encode, spelt, Bytes.bits_append, Checksum.bits_trailer, List.append_assoc]
  obtain ⟨k, hk, spelt⟩ := bits v payload
  obtain ⟨k', hk', spelt'⟩ := bits v' payload'
  obtain ⟨ns, hn, rfl⟩ := Base32.exists_digits h
  obtain ⟨ms, hm, rfl⟩ := Base32.exists_digits h'
  rw [List.length_map] at two
  rw [List.length_map, List.length_map] at same
  rw [h, Base32.spelt_append, Base32.spelt_append, Base32.spelt_map_digit hn] at spelt
  rw [h', Base32.spelt_append, Base32.spelt_append, Base32.spelt_map_digit hm] at spelt'
  -- texts of one length have as many bytes
  have length := congrArg List.length spelt
  have length' := congrArg List.length spelt'
  simp only [List.length_append, List.length_replicate, Base32.length_flatMap_bitsOf,
    Bytes.length_bits, Checksum.length_spell, same] at length length'
  obtain rfl : k = k' := by omega
  refine congrArg _ (Base32.flatMap_bitsOf_injective hn hm ?_)
  refine Checksum.eq_of_window ?_ spelt.symm spelt'.symm ?_ ?_
  · rw [Bytes.length_bits, Bytes.length_bits]
    omega
  · rw [Base32.length_flatMap_bitsOf, Base32.length_flatMap_bitsOf, same]
  · rw [Base32.length_flatMap_bitsOf]
    omega

/-! ### Slips -/

/-- One slip in copying a text: a character is replaced by another one, or two different neighbours
are exchanged. -/
inductive Slip : List Char → List Char → Prop where
  | replace {before after : List Char} {c d : Char} (h : c ≠ d) :
      Slip (before ++ c :: after) (before ++ d :: after)
  | exchange {before after : List Char} {c d : Char} (h : c ≠ d) :
      Slip (before ++ c :: d :: after) (before ++ d :: c :: after)

/-- A key that was copied with a slip is the text of no key. -/
theorem decode_slip {v : Version} {payload : Bytes} {s : List Char}
    (h : Slip (encode v payload) s) : ∃ f, decode s = .error f := by
  cases hd : decode s with
  | error f => exact ⟨f, rfl⟩
  | ok key =>
      obtain ⟨v', payload'⟩ := key
      obtain ⟨-, rfl⟩ := encode_of_decode hd
      generalize hs : encode v payload = s, ht : encode v' payload' = t at h
      cases h with
      | @replace before after c d ne =>
          have same : [c] = [d] := eq_of_window hs ht rfl (Nat.le_succ 1)
          exact absurd (List.cons.inj same).1 ne
      | @exchange before after c d ne =>
          have same : [c, d] = [d, c] := eq_of_window hs ht rfl (Nat.le_refl 2)
          exact absurd (List.cons.inj same).1 ne

/-- The account whose key is zero, with its second letter replaced and with its last two
exchanged. -/
theorem decode_slip_zero :
    Slip (encode .account (Block.zero 32).bytes)
        (['G'] ++ 'B' :: "AAAAAAAAAAAAAAAAAAAAAAAAAAAAAAAAAAAAAAAAAAAAAAAAAAAWHF".toList) ∧
      (∃ f, decode
        (['G'] ++ 'B' :: "AAAAAAAAAAAAAAAAAAAAAAAAAAAAAAAAAAAAAAAAAAAAAAAAAAAWHF".toList) =
          .error f) ∧
      Slip (encode .account (Block.zero 32).bytes)
        ("GAAAAAAAAAAAAAAAAAAAAAAAAAAAAAAAAAAAAAAAAAAAAAAAAAAAAW".toList ++ ['F', 'H']) ∧
      ∃ f, decode ("GAAAAAAAAAAAAAAAAAAAAAAAAAAAAAAAAAAAAAAAAAAAAAAAAAAAAW".toList ++ ['F', 'H']) =
        .error f := by
  have replaced : Slip (encode .account (Block.zero 32).bytes)
      (['G'] ++ 'B' :: "AAAAAAAAAAAAAAAAAAAAAAAAAAAAAAAAAAAAAAAAAAAAAAAAAAAWHF".toList) := by
    have text : encode .account (Block.zero 32).bytes =
        ['G'] ++ 'A' :: "AAAAAAAAAAAAAAAAAAAAAAAAAAAAAAAAAAAAAAAAAAAAAAAAAAAWHF".toList := by
      decide +kernel
    rw [text]
    exact .replace (by decide)
  have exchanged : Slip (encode .account (Block.zero 32).bytes)
      ("GAAAAAAAAAAAAAAAAAAAAAAAAAAAAAAAAAAAAAAAAAAAAAAAAAAAAW".toList ++ ['F', 'H']) := by
    have text : encode .account (Block.zero 32).bytes =
        "GAAAAAAAAAAAAAAAAAAAAAAAAAAAAAAAAAAAAAAAAAAAAAAAAAAAAW".toList ++ ['H', 'F'] := by
      decide +kernel
    rw [text]
    exact .exchange (by decide)
  exact ⟨replaced, decode_slip replaced, exchanged, decode_slip exchanged⟩

end StrKey
end Key

end XdrText
