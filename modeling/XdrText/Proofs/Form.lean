import XdrText.Form.Code
import XdrText.Form.Date
import XdrText.Form.Literal
import XdrText.Form.Octets
import XdrText.Form.Scaled
import XdrText.Proofs.Text

/-!
# XdrText — forms that are read as they were written

String literals, opaque data and identifier codes are read back from their texts.  A code is read
into any length that its significant bytes fit (`Form.Code.scan_render`).  The commentary behind
amounts and times stays on its line.
-/

namespace XdrText.Form
open XdrText.Text

/-- A list is what is left without the `a`s at its end, and these. -/
theorem exists_replicate {α : Type} [DecidableEq α] (a : α) (l : List α) :
    ∃ k, l = (l.reverse.dropWhile (· = a)).reverse ++ List.replicate k a ∧
      (l.reverse.dropWhile (· = a)).reverse.getLast? ≠ some a := by
  refine ⟨(l.reverse.takeWhile (· = a)).length, ?_, fun last => ?_⟩
  · have all : l.reverse.takeWhile (· = a) = List.replicate
        (l.reverse.takeWhile (· = a)).length a :=
      List.eq_replicate_iff.mpr ⟨rfl, fun x hx => by simpa using List.mem_takeWhile_imp hx⟩
    have parts := List.takeWhile_append_dropWhile (p := (· = a)) (l := l.reverse)
    rw [← List.reverse_replicate, ← all, ← List.reverse_append, parts, List.reverse_reverse]
  · rw [List.getLast?_reverse] at last
    exact absurd (List.head?_dropWhile_not (· = a) l.reverse) (by simp [last])

/-! ### Identifier codes -/

namespace Code

/-- A byte of a code is written in graphic characters, and a question mark only as an escape. -/
theorem graphic_renderByte (b : UInt8) : ∀ c ∈ renderByte b, Graphic c ∧ c ≠ '?' := by
  intro c hc
  simp only [renderByte] at hc
  split at hc
  · revert c; exact forall_of_all (by decide)
  · split at hc
    · revert c; exact forall_of_all (by decide)
    next mark =>
      split at hc
      next range =>
        obtain rfl := List.mem_singleton.mp hc
        rw [UInt8.le_iff_toNat_le, UInt8.le_iff_toNat_le] at range
        refine ⟨by rwa [Graphic, toNat_ofUInt8], fun h => mark ?_⟩
        rw [← byteOf_ofUInt8 b, h]
        decide
      next =>
        rcases List.mem_cons.mp hc with rfl | hc
        · decide
        · rcases List.mem_cons.mp hc with rfl | hc
          · decide
          · exact Hex.graphic_ofByte b c hc

/-- So is a whole code. -/
theorem graphic_render (b : Bytes) : ∀ c ∈ render b, Graphic c ∧ c ≠ '?' := by
  intro c hc
  obtain ⟨x, -, hx⟩ := List.mem_flatMap.mp hc
  exact graphic_renderByte x c hx

/-- A byte is read back whatever follows it. -/
theorem scanByte_renderByte (b : UInt8) (rest : List Char) :
    ∃ c cs, renderByte b = c :: cs ∧ scanByte c (cs ++ rest) = .ok (b, rest) := by
  simp only [renderByte]
  split
  next h => exact ⟨_, _, rfl, by rw [h]; rfl⟩
  next slash =>
    split
    next h => exact ⟨_, _, rfl, by rw [h]; rfl⟩
    next =>
      split
      next range =>
        refine ⟨_, _, rfl, ?_⟩
        have escape : Char.ofUInt8 b ≠ '\\' := fun h =>
          slash (by rw [← byteOf_ofUInt8 b, h]; decide)
        rw [UInt8.le_iff_toNat_le, UInt8.le_iff_toNat_le, ← toNat_ofUInt8] at range
        have byte : (Char.ofUInt8 b).toUInt8 = b := byteOf_ofUInt8 b
        simp only [scanByte, escape, if_false, List.nil_append, byte]
        exact if_pos range
      next =>
        refine ⟨_, _, rfl, ?_⟩
        simp only [Hex.ofByte, scanByte, if_true, List.cons_append, List.nil_append,
          Hex.byte?_ofByte]

/-- As many bytes as there is room for are read, and at most those before a blank. -/
theorem scanBytes_render {tail : List Char} (ht : ∀ c, tail.head? = some c → isBlank c = true) :
    ∀ (n : Nat) (bs : Bytes), scanBytes n (bs.flatMap renderByte ++ tail) =
      .ok (bs.take n, (bs.drop n).flatMap renderByte ++ tail)
  | 0, _ => rfl
  | n + 1, [] => by
      rw [List.flatMap_nil, List.nil_append]
      cases tail with
      | nil => rfl
      | cons c tail => exact if_pos (ht c rfl)
  | n + 1, b :: bs => by
      obtain ⟨c, cs, hc, scanned⟩ := scanByte_renderByte b (bs.flatMap renderByte ++ tail)
      have blank : isBlank c = false :=
        (graphic_renderByte b c (hc ▸ List.mem_cons_self)).1.isBlank
      rw [List.flatMap_cons, hc, List.append_assoc, List.cons_append]
      simp only [scanBytes, blank, Bool.false_eq_true, if_false, scanned, bind, Except.bind,
        scanBytes_render ht n bs]
      rfl

/-! The significant bytes of a code -/

/-- A code is its significant bytes and zeros. -/
theorem significant_append (b : Bytes) :
    ∃ k, b = significant b ++ List.replicate k 0 ∧
      ∀ x, (significant b).getLast? = some x → x ≠ 0 := by
  obtain ⟨k, whole, last⟩ := exists_replicate 0 b
  refine ⟨k, whole, fun x hx same => last ?_⟩
  rwa [same] at hx

/-- More than `n` bytes are significant when one behind the first `n` is not zero. -/
theorem lt_length_significant {b : Bytes} {n : Nat} :
    n < (significant b).length ↔ ∃ x ∈ b.drop n, x ≠ 0 := by
  obtain ⟨k, hb, hlast⟩ := significant_append b
  constructor
  · -- the last significant byte is not zero
    intro h
    obtain ⟨front, x, hx⟩ := List.eq_nil_or_concat (significant b) |>.resolve_left
      (by rintro h'; simp [h'] at h)
    refine ⟨x, ?_, hlast x (by simp [hx])⟩
    rw [hx, List.concat_eq_append, List.length_append] at h
    rw [hb, hx, List.concat_eq_append, List.append_assoc,
      List.drop_append_of_le_length (by simpa using Nat.le_of_lt_succ h)]
    simp
  · rintro ⟨x, hx, ne⟩
    by_contra h
    rw [hb, List.drop_append, List.drop_of_length_le (Nat.le_of_not_lt h), List.nil_append] at hx
    exact ne (List.eq_of_mem_replicate (List.mem_of_mem_drop hx))

/-- Nothing is written of a code that is all zero. -/
theorem render_eq_nil {b : Bytes} : render b = [] ↔ ¬ ∃ x ∈ b, x ≠ 0 := by
  have shown := lt_length_significant (b := b) (n := 0)
  rw [List.drop_zero] at shown
  rw [← shown, Nat.not_lt, Nat.le_zero, List.length_eq_zero_iff, render]
  constructor
  · intro h
    cases hs : significant b with
    | nil => rfl
    | cons x xs =>
        obtain ⟨c, cs, hc, -⟩ := scanByte_renderByte x []
        rw [hs, List.flatMap_cons, hc] at h
        cases h
  · intro h
    rw [h]
    rfl

/-- Cutting zeros off makes no code longer. -/
theorem length_significant_le (b : Bytes) : (significant b).length ≤ b.length := by
  obtain ⟨k, hb, -⟩ := significant_append b
  have length := congrArg List.length hb
  rw [List.length_append] at length
  omega

/-- Filled up with zeros, the significant bytes are the first ones. -/
theorem significant_fill {b : Bytes} {n : Nat} (h : n ≤ b.length)
    (fits : (significant b).length ≤ n) :
    significant b ++ List.replicate (n - (significant b).length) 0 = b.take n := by
  obtain ⟨k, hb, -⟩ := significant_append b
  have length := congrArg List.length hb
  rw [List.length_append, List.length_replicate] at length
  have cut : (significant b ++ List.replicate k 0).take n =
      significant b ++ List.replicate (n - (significant b).length) 0 := by
    rw [List.take_append, List.take_of_length_le fits, List.take_replicate,
      Nat.min_eq_left (by omega)]
  rw [← cut, ← hb]

/-- A code before a blank is read into `n` bytes when its significant ones fit. -/
theorem scan_render_append {n : Nat} {b : Bytes} {v tail : List Char}
    (hv : trimLeft v = render b ++ tail) (ht : ∀ c, tail.head? = some c → isBlank c = true) :
    scan n v = if (significant b).length ≤ n then
        .ok (significant b ++ List.replicate (n - (significant b).length) 0)
      else .error .tooLong := by
  simp only [scan, hv, render, scanBytes_render ht, bind, Except.bind]
  by_cases fits : (significant b).length ≤ n
  · have blank : tail.head?.all isBlank = true := by simpa [Option.all_eq_true] using ht
    rw [if_pos fits, List.drop_of_length_le fits, List.take_of_length_le fits, List.flatMap_nil,
      List.nil_append, if_pos blank]
    rfl
  · -- the byte behind the first `n` is written without a blank
    have ne : (significant b).drop n ≠ [] := by simpa using fits
    obtain ⟨x, xs, hx⟩ := List.exists_cons_of_ne_nil ne
    obtain ⟨c, cs, hc, -⟩ := scanByte_renderByte x []
    have blank : isBlank c = false :=
      (graphic_renderByte x c (hc ▸ List.mem_cons_self)).1.isBlank
    simp only [if_neg fits, hx, List.flatMap_cons, hc, List.cons_append, List.head?_cons,
      Option.all_some, blank, Bool.false_eq_true, if_false]
    rfl

/-- A code is read into `n` bytes when its significant ones fit. -/
theorem scan_render {n : Nat} {b : Bytes} {v : List Char} (hv : trimLeft v = render b) :
    scan n v = if (significant b).length ≤ n then
        .ok (significant b ++ List.replicate (n - (significant b).length) 0)
      else .error .tooLong := by
  rw [← List.append_nil (render b)] at hv
  exact scan_render_append hv (by simp)

/-- A code is read back into its own length. -/
theorem scan_render_self {b : Bytes} {v : List Char} (hv : trimLeft v = render b) :
    scan b.length v = .ok b := by
  rw [scan_render hv, if_pos (length_significant_le b),
    significant_fill (Nat.le_refl _) (length_significant_le b), List.take_length]

/-- Nothing of a code is trimmed, and nothing behind it as long as there is a code. -/
theorem trimLeft_render_append {b : Bytes} {tail : List Char} (h : render b = [] → tail = []) :
    trimLeft (render b ++ tail) = render b ++ tail := by
  refine trimLeft_of_head fun c hc => ?_
  cases hr : render b with
  | nil =>
      rw [hr, h hr] at hc
      cases hc
  | cons d ds =>
      rw [hr] at hc
      cases hc
      exact (graphic_render b c (hr ▸ List.mem_cons_self)).1.isBlank

theorem trimLeft_render (b : Bytes) : trimLeft (render b) = render b := by
  rw [← List.append_nil (render b)]
  exact trimLeft_render_append fun _ => rfl

end Code

/-! ### String literals -/

namespace Literal

/-- Within quotes there are graphic characters and spaces. -/
theorem ascii_renderByte (b : UInt8) : ∀ c ∈ renderByte b, Graphic c ∨ c = ' ' := by
  intro c hc
  simp only [renderByte] at hc
  split at hc
  · revert c; exact forall_of_all (by decide)
  split at hc
  · revert c; exact forall_of_all (by decide)
  split at hc
  · revert c; exact forall_of_all (by decide)
  split at hc
  · revert c; exact forall_of_all (by decide)
  split at hc
  · revert c; exact forall_of_all (by decide)
  split at hc
  next range =>
    obtain rfl := List.mem_singleton.mp hc
    rw [UInt8.le_iff_toNat_le, UInt8.le_iff_toNat_le, ← toNat_ofUInt8] at range
    rcases Nat.eq_or_lt_of_le range.1 with h | h
    · exact .inr (Char.toNat_inj.mp h.symm)
    · exact .inl ⟨h, range.2⟩
  next =>
    rcases List.mem_cons.mp hc with rfl | hc
    · exact .inl (by decide)
    · rcases List.mem_cons.mp hc with rfl | hc
      · exact .inl (by decide)
      · exact .inl (Hex.graphic_ofByte b c hc).1

/-- The two digits of an escape are read as the byte. -/
theorem escapedByte?_digits (b : UInt8) :
    escapedByte? (byteOf (Nat.digitChar (b.toNat / 16))) (byteOf (Nat.digitChar (b.toNat % 16))) =
      some b := by
  have bound := b.toNat_lt
  have digit : ∀ n < 16, byteOf (Nat.digitChar n) ≠ 0x2B ∧
      Char.ofUInt8 (byteOf (Nat.digitChar n)) = Nat.digitChar n := by
    decide
  rw [escapedByte?, if_neg (digit _ (by omega)).1, (digit _ (by omega)).2, (digit _ (by omega)).2,
    Hex.byte?_ofByte]

/-- A byte is read back whatever follows it. -/
theorem scanBody_renderByte (b : UInt8) (rest : Bytes) :
    scanBody ((renderByte b).map byteOf ++ rest) = (b :: ·) <$> scanBody rest := by
  -- the escapes of one letter
  have escaped : ∀ {e x : UInt8}, (e, x) ∈ [(0x22, 0x22), (0x5C, 0x5C), (0x6E, 0x0A), (0x74, 0x09),
      (0x72, 0x0D)] → scanBody (0x5C :: e :: rest) = (x :: ·) <$> scanBody rest := by
    intro e x h
    rw [scanBody.eq_def]
    simp only [List.mem_cons, Prod.mk.injEq, List.not_mem_nil, or_false] at h
    rcases h with ⟨rfl, rfl⟩ | ⟨rfl, rfl⟩ | ⟨rfl, rfl⟩ | ⟨rfl, rfl⟩ | ⟨rfl, rfl⟩ <;> rfl
  simp only [renderByte]
  split
  next h => rw [h]; exact escaped (by decide)
  next quote =>
    split
    next h => rw [h]; exact escaped (by decide)
    next slash =>
      split
      next h => rw [h]; exact escaped (by decide)
      split
      next h => rw [h]; exact escaped (by decide)
      split
      next h => rw [h]; exact escaped (by decide)
      split
      next =>
        rw [List.map_singleton, byteOf_ofUInt8, List.singleton_append, scanBody.eq_def]
        simp only [quote, slash, if_false]
      next =>
        have bytes : ('\\' :: 'x' :: Hex.ofByte b).map byteOf ++ rest =
            0x5C :: 0x78 :: byteOf (Nat.digitChar (b.toNat / 16)) ::
              byteOf (Nat.digitChar (b.toNat % 16)) :: rest := rfl
        rw [bytes, scanBody.eq_def]
        simp only [escapedByte?_digits]
        rfl

/-- The bytes of a literal are read back up to the closing quote, whatever stands behind it. -/
theorem scanBody_render (tail : Bytes) : ∀ b : Bytes,
    scanBody ((b.flatMap renderByte).map byteOf ++ 0x22 :: tail) = .ok b
  | [] => by rw [List.flatMap_nil, List.map_nil, List.nil_append, scanBody.eq_def]; rfl
  | x :: b => by
      rw [List.flatMap_cons, List.map_append, List.append_assoc, scanBody_renderByte,
        scanBody_render tail b]
      rfl

/-- A string is read back from its literal, whatever follows it. -/
theorem scan_render_append {b : Bytes} {v tail : List Char} (hv : trimLeft v = render b ++ tail) :
    scan v = .ok b := by
  have ascii : ∀ c ∈ b.flatMap renderByte, c.toNat < 0x80 := by
    intro c hc
    obtain ⟨x, -, hx⟩ := List.mem_flatMap.mp hc
    rcases ascii_renderByte x c hx with h | rfl
    · exact h.ascii
    · decide
  -- the closing quote is one byte of UTF-8, whatever those of the tail are
  have body : Utf8.encode (b.flatMap renderByte ++ '"' :: tail) =
      (b.flatMap renderByte).map byteOf ++ 0x22 :: Utf8.encode tail := by
    rw [Utf8.encode_append, Utf8.encode_ascii ascii]
    rfl
  rw [render, List.cons_append, List.cons_append, List.append_assoc] at hv
  simp only [scan, hv, List.singleton_append, body]
  exact scanBody_render (Utf8.encode tail) b

/-- A string is read back from its literal. -/
theorem scan_render {b : Bytes} {v : List Char} (hv : trimLeft v = render b) :
    scan v = .ok b := by
  rw [← List.append_nil (render b)] at hv
  exact scan_render_append hv

theorem trimLeft_render (b : Bytes) : trimLeft (render b) = render b :=
  trimLeft_of_head fun c hc => by cases hc; decide

/-- A literal shows nothing but characters of ASCII that can be seen, and spaces. -/
theorem printable_render (b : Bytes) : ∀ c ∈ render b, 0x20 ≤ c.toNat ∧ c.toNat ≤ 0x7E := by
  intro c hc
  simp only [render, List.cons_append, List.mem_cons, List.mem_append, List.mem_flatMap,
    List.not_mem_nil, or_false] at hc
  rcases hc with rfl | ⟨x, -, hx⟩ | rfl
  · decide
  · rcases ascii_renderByte x c hx with ⟨low, high⟩ | rfl
    · exact ⟨Nat.le_of_succ_le low, high⟩
    · decide
  · decide

/-- A literal ends in its quote. -/
theorem settled_render (b : Bytes) : Settled (render b) := by
  have quote : Settled ['"'] := .of_graphic (forall_of_all (by decide)) (by decide)
  refine .append (x := '"' :: b.flatMap renderByte) ?_ quote (by simp)
  rintro (_ | ⟨_, h⟩)
  obtain ⟨x, -, hx⟩ := List.mem_flatMap.mp h
  exact (ascii_renderByte x _ hx).elim (by decide) (by decide)

end Literal

/-! ### Opaque data -/

namespace Octets

theorem render_cons (x : UInt8) (b : Bytes) : render (x :: b) = Hex.encode (x :: b) := rfl

/-- Opaque data of fixed length is read back where it is the first token. -/
theorem scanFixed_encode {b : Bytes} {v : List Char} (hv : firstToken v = Hex.encode b) :
    scanFixed b.length v = .ok b := by
  simp only [scanFixed, hv, Hex.decode_encode, if_true]

/-- Opaque data is read back from its first token. -/
theorem scan_render {b : Bytes} {v : List Char} (hv : firstToken v = firstToken (render b)) :
    scan v = .ok b := by
  cases b with
  | nil =>
      have token : firstToken v = ['0'] := hv
      exact if_pos token
  | cons x b =>
      have token : firstToken v = Hex.encode (x :: b) := by
        rw [hv, render_cons,
          firstToken_self fun c hc => (Hex.graphic_encode _ c hc).1.isBlank]
      -- a single zero stands for no data, but digits come in pairs
      have even : Hex.encode (x :: b) ≠ ['0'] := fun h => by
        have := congrArg List.length h
        rw [Hex.length_encode, List.length_cons, List.length_singleton] at this
        omega
      simp only [scan, token, even, if_false, Hex.decode_encode]
      rfl

/-- Hexadecimal text has no blank and no question mark. -/
theorem settled_encode (b : Bytes) : Settled (Hex.encode b) :=
  .of_graphic (fun c hc => (Hex.graphic_encode b c hc).1) fun h => (Hex.graphic_encode b _ h).2 rfl

/-- Opaque data is settled, also where it is the remark that there are no bytes. -/
theorem settled_render : ∀ b : Bytes, Settled (render b)
  | [] => .append (x := "0 ".toList) (y := "bytes".toList) (by decide)
      (.of_graphic (forall_of_all (by decide)) (by decide)) (by decide)
  | x :: b => settled_encode (x :: b)

end Octets

/-! ### Commentary -/

/-- Separating groups adds nothing but commas. -/
theorem Scaled.mem_separate {c : Char} : ∀ {s : List Char}, c ∈ separate s → c = ',' ∨ c ∈ s
  | [], h | [_], h | [_, _], h | [_, _, _], h => .inr h
  | a :: b :: d :: e :: rest, h => by
      simp only [separate, List.mem_cons] at h
      rcases h with rfl | rfl | rfl | rfl | h
      · exact .inr (by simp)
      · exact .inr (by simp)
      · exact .inr (by simp)
      · exact .inl rfl
      · exact (Scaled.mem_separate h).imp id fun h => List.mem_cons_of_mem _
          (List.mem_cons_of_mem _ (List.mem_cons_of_mem _ h))

/-- An amount stays on its line. -/
theorem Scaled.noFeed_render (exp : Nat) (v : Int) : '\n' ∉ render exp v := by
  have grouped : ∀ n, '\n' ∉ grouped n := by
    intro n h
    rcases mem_separate (List.mem_reverse.mp h) with h | h
    · exact absurd h (by decide)
    · exact Decimal.noFeed_ofNat (List.mem_reverse.mp h)
  have fraction : ∀ e f, '\n' ∉ fraction e f := by
    intro e f h
    simp only [Scaled.fraction] at h
    split at h
    · cases h
    · rcases List.mem_cons.mp h with h | h
      · exact absurd h (by decide)
      · have digits := List.dropWhile_subset _ (List.mem_reverse.mp h)
        exact Decimal.noFeed_padded (List.mem_reverse.mp digits)
  simp only [render, List.mem_append, List.mem_cons, not_or]
  refine ⟨⟨⟨?_, grouped _⟩, fraction _ _⟩, by decide, Decimal.noFeed_ofNat⟩
  split <;> decide

end XdrText.Form
