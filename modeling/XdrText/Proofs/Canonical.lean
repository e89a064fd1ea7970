import XdrText.Proofs.Key

/-!
# XdrText — a key has one text

In base 32 a byte string has one text only: the bits that a text spells are those of whole bytes and
fewer than five zeros behind them, and so are those of the text that is written.

**Canonical texts** (`Key.StrKey.decode_eq_ok_iff`).  A text is that of a version and a payload
exactly when the payload has the length of the version and its text is this one.
-/

namespace XdrText

theorem Bytes.append_of_split? {n : Nat} {a b c : Bytes} (h : split? n a = some (b, c)) :
    a = b ++ c := by
  simp only [split?] at h
  split at h
  · cases h
    exact (List.take_append_drop n a).symm
  · cases h

namespace Key

/-! ### Base 32 -/

namespace Base32

/-- A character stands for a number below 32, whose character it is. -/
theorem digit_of_value? {c : Char} {n : Nat} (h : value? c = some n) : n < 32 ∧ digit n = c := by
  obtain ⟨hn, hc, -⟩ := List.findIdx?_eq_some_iff_getElem.mp h
  refine ⟨hn, ?_⟩
  rw [digit, List.getD_eq_getElem?_getD, List.getElem?_eq_getElem hn]
  simpa using hc

/-- A text that is read digit by digit is the text of those digits. -/
theorem map_digit_of_mapM {s : List Char} {ns : List Nat} (h : s.mapM value? = some ns) :
    (∀ n ∈ ns, n < 32) ∧ ns.map digit = s := by
  induction s generalizing ns with
  | nil => cases h; simp
  | cons c s ih =>
      rw [List.mapM_cons] at h
      obtain ⟨n, hn, h⟩ := Option.bind_eq_some_iff.mp h
      obtain ⟨ns, hns, h⟩ := Option.bind_eq_some_iff.mp h
      cases h
      obtain ⟨lt, hd⟩ := digit_of_value? hn
      obtain ⟨below, same⟩ := ih hns
      exact ⟨List.forall_mem_cons.mpr ⟨lt, below⟩, by rw [List.map_cons, hd, same]⟩

/-- Numbers below 32 are told from their bits, five for each. -/
theorem flatMap_bitsOf_injective {ns ms : List Nat} (hn : ∀ n ∈ ns, n < 32) (hm : ∀ m ∈ ms, m < 32)
    (h : ns.flatMap (bitsOf 5) = ms.flatMap (bitsOf 5)) : ns = ms := by
  induction ns generalizing ms with
  | nil =>
      cases ms with
      | nil => rfl
      | cons m ms => cases h
  | cons n ns ih =>
      cases ms with
      | nil => cases h
      | cons m ms =>
          obtain ⟨hn₀, hn⟩ := List.forall_mem_cons.mp hn
          obtain ⟨hm₀, hm⟩ := List.forall_mem_cons.mp hm
          rw [List.flatMap_cons, List.flatMap_cons] at h
          obtain ⟨first, rest⟩ := List.append_inj h (by simp)
          rw [ih hn hm rest, ← ofBits_bitsOf (k := 5) hn₀, first, ofBits_bitsOf hm₀]

/-- Each digit carries five bits. -/
theorem length_flatMap_bitsOf (ns : List Nat) : (ns.flatMap (bitsOf 5)).length = 5 * ns.length := by
  induction ns with
  | nil => rfl
  | cons n ns ih =>
      rw [List.flatMap_cons, List.length_append, length_bitsOf, ih, List.length_cons]
      omega

/-- Groups of eight bits spell bytes that have these bits. -/
theorem octets_spec : ∀ bits : List Bool, bits = (octets bits).1.bits ++ (octets bits).2
  | a :: b :: c :: d :: e :: f :: g :: h :: rest => by
      have digits := bitsOf_byte (w := [a, b, c, d, e, f, g, h]) rfl
      rw [octets, Bytes.bits_cons, digits, List.append_assoc]
      exact congrArg ([a, b, c, d, e, f, g, h] ++ ·) (octets_spec rest)
  | [] | [_] | [_, _] | [_, _, _] | [_, _, _, _] | [_, _, _, _, _] | [_, _, _, _, _, _]
  | [_, _, _, _, _, _, _] => rfl

/-- A byte string has one text. -/
theorem encode_of_decode? {s : List Char} {b : Bytes} (h : decode? s = some b) : encode b = s := by
  obtain ⟨ns, hns, h⟩ := Option.bind_eq_some_iff.mp h
  obtain ⟨below, same⟩ := map_digit_of_mapM hns
  have spelt := octets_spec (ns.flatMap (bitsOf 5))
  generalize octets (ns.flatMap (bitsOf 5)) = read at h spelt
  obtain ⟨bytes, short⟩ := read
  simp only [Option.ite_none_right_eq_some, Option.some.injEq] at h spelt
  obtain ⟨⟨few, zeros⟩, rfl⟩ := h
  have filled : short = List.replicate short.length false :=
    List.eq_replicate_iff.mpr ⟨rfl, by simpa using zeros⟩
  -- as many zeros are left as fill up the last group of five
  obtain ⟨below', k, hk, spelt'⟩ := quintets_spec bytes.bits
  have count : k = short.length := by
    have read := congrArg List.length spelt
    have written := congrArg List.length spelt'
    rw [length_flatMap_bitsOf, List.length_append] at read written
    rw [List.length_replicate] at written
    omega
  have groups : quintets bytes.bits = ns := by
    refine flatMap_bitsOf_injective below' below ?_
    rw [spelt', count, ← filled, spelt]
  rw [encode, groups, same]

end Base32

/-! ### Keys -/

namespace StrKey

theorem byte_of_ofByte? {b : UInt8} {v : Version} (h : Version.ofByte? b = some v) :
    v.byte = b := by
  simpa using List.find?_some h

/-- A text that is read is the text of what is read. -/
theorem encode_of_decode {s : List Char} {v : Version} {payload : Bytes}
    (h : decode s = .ok (v, payload)) :
    payload.length = v.payloadLength ∧ encode v payload = s := by
  simp only [decode] at h
  split at h
  next => cases h
  next raw hraw =>
    split at h
    next => cases h
    next =>
      split at h
      next first rest trailer cut =>
        split at h
        next => cases h
        next checked =>
          split at h
          next => cases h
          next version hv =>
            split at h
            next => cases h
            next length =>
              cases h
              rw [not_not] at checked length
              refine ⟨length, ?_⟩
              rw [encode, byte_of_ofByte? hv, ← checked, ← Bytes.append_of_split? cut]
              exact Base32.encode_of_decode? hraw
      next => cases h

/-- The texts of keys are those that are read, each as its version and its payload. -/
theorem decode_eq_ok_iff (s : List Char) (v : Version) (payload : Bytes) :
    decode s = .ok (v, payload) ↔ payload.length = v.payloadLength ∧ encode v payload = s := by
  constructor
  · exact encode_of_decode
  · rintro ⟨length, rfl⟩
    exact decode_encode length

end StrKey

end Key

end XdrText
