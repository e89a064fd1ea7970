import Mathlib.Data.List.TakeWhile
import XdrText.Reader.Reading
import XdrText.Text.Decimal
import XdrText.Text.Hex

/-!
# XdrText — text that is read as it was written

The text of a value is settled when it stays on its line and loses nothing at its end: it has no
line feed and ends neither in a blank nor in a `?`.  The row of a settled text gives it back up to
leading blanks (`Text.Settled.entry`).  Graphic characters are one byte of UTF-8 each, and numbers
in decimal and bytes in hexadecimal are read back from them.
-/

namespace XdrText

namespace Text

/-! ### Tokens -/

/-- A character of ASCII that shows and is no space. -/
def Graphic (c : Char) : Prop :=
  0x21 ≤ c.toNat ∧ c.toNat ≤ 0x7E

instance (c : Char) : Decidable (Graphic c) :=
  inferInstanceAs (Decidable (_ ∧ _))

/-- All characters of a text are so when a walk through them says so. -/
theorem forall_of_all {p : Char → Prop} [DecidablePred p] {x : List Char}
    (h : x.all fun c => p c) : ∀ c ∈ x, p c := by
  simpa using h

/-- A graphic character is no blank. -/
theorem Graphic.isBlank {c : Char} (h : Graphic c) : isBlank c = false := by
  obtain ⟨h₁, h₂⟩ := h
  simp only [Text.isBlank, Bool.or_eq_false_iff, Bool.and_eq_false_iff, decide_eq_false_iff_not,
    beq_eq_false_iff_ne]
  omega

theorem ne_of_isBlank {c d : Char} (hc : isBlank c = false) (hd : isBlank d = true) : c ≠ d := by
  rintro rfl
  rw [hc] at hd
  cases hd

/-- There is nothing to trim where the first character is no blank. -/
theorem trimLeft_of_head {s : List Char} (h : ∀ c, s.head? = some c → isBlank c = false) :
    trimLeft s = s := by
  cases s with
  | nil => rfl
  | cons c s => exact List.dropWhile_cons_of_neg (by simp [h c rfl])

/-- Blanks in front of a text do not matter once it is trimmed. -/
theorem trimLeft_append {blanks : List Char} (h : ∀ c ∈ blanks, isBlank c = true) (s : List Char) :
    trimLeft (blanks ++ s) = trimLeft s :=
  List.dropWhile_append_of_pos h

/-- The first token does not depend on the blanks in front of it. -/
theorem firstToken_congr {s t : List Char} (h : trimLeft s = trimLeft t) :
    firstToken s = firstToken t := by
  rw [firstToken, firstToken, h]

/-- What is taken ends at the first character that is not to be taken. -/
theorem takeWhile_append_of_head {α : Type} {p : α → Bool} {x tail : List α} (hx : ∀ c ∈ x, p c)
    (ht : ∀ c, tail.head? = some c → p c = false) : (x ++ tail).takeWhile p = x := by
  rw [List.takeWhile_append_of_pos hx]
  cases tail with
  | nil => simp
  | cons c tail => simp [ht c rfl]

/-- A text without blanks is the first token of itself and of what begins with it and a blank. -/
theorem firstToken_append {x : List Char} (tail : List Char) (ne : x ≠ [])
    (hx : ∀ c ∈ x, isBlank c = false) (ht : ∀ c, tail.head? = some c → isBlank c = true) :
    firstToken (x ++ tail) = x := by
  have untrimmed : trimLeft (x ++ tail) = x ++ tail := by
    refine trimLeft_of_head fun c hc => hx c ?_
    obtain ⟨a, as, rfl⟩ := List.exists_cons_of_ne_nil ne
    cases hc
    exact List.mem_cons_self
  rw [firstToken, untrimmed]
  exact takeWhile_append_of_head (by simpa using hx) fun c hc => by simp [ht c hc]

/-- A text without blanks is one token. -/
theorem firstToken_self {x : List Char} (hx : ∀ c ∈ x, isBlank c = false) : firstToken x = x := by
  rcases eq_or_ne x [] with rfl | ne
  · rfl
  · simpa using firstToken_append [] ne hx (by simp)

/-! ### Rows -/

/-- A text with no line feed that ends neither in a blank nor in a `?`. -/
structure Settled (x : List Char) : Prop where
  noFeed : '\n' ∉ x
  last : ∀ c, x.getLast? = some c → isBlank c = false ∧ c ≠ '?'

namespace Settled

/-- A text without blanks is settled unless it ends in a `?`. -/
theorem of_tokens {x : List Char} (hx : ∀ c ∈ x, isBlank c = false) (hq : x.getLast? ≠ some '?') :
    Settled x where
  noFeed h := by simpa [isBlank] using hx _ h
  last c hc := ⟨hx c (List.mem_of_getLast? hc), by rintro rfl; exact hq hc⟩

/-- So is a graphic text without a `?`. -/
theorem of_graphic {x : List Char} (hx : ∀ c ∈ x, Graphic c) (hq : '?' ∉ x) : Settled x :=
  of_tokens (fun c hc => (hx c hc).isBlank) fun h => hq (List.mem_of_getLast? h)

/-- Only the end of a text can keep it from being settled, and line feeds. -/
theorem append {x y : List Char} (hx : '\n' ∉ x) (hy : Settled y) (ne : y ≠ []) :
    Settled (x ++ y) where
  noFeed h := (List.mem_append.mp h).elim hx hy.noFeed
  last c hc := by
    rw [List.getLast?_append, List.getLast?_eq_some_getLast ne, Option.some_or] at hc
    exact hy.last c (by rw [List.getLast?_eq_some_getLast ne, hc])

/-- Two settled texts make one. -/
theorem both {x y : List Char} (hx : Settled x) (hy : Settled y) : Settled (x ++ y) := by
  rcases eq_or_ne y [] with rfl | ne
  · rwa [List.append_nil]
  · exact append hx.noFeed hy ne

/-- A settled text keeps a parenthesis behind it settled. -/
theorem parenthesis {x note : List Char} (hx : '\n' ∉ x) (hn : '\n' ∉ note) :
    Settled (x ++ " (".toList ++ note ++ [')']) :=
  append (by simp [hx, hn]) (of_graphic (forall_of_all (by decide)) (by decide)) (by simp)

/-- A settled text behind a space does not end in a carriage return. -/
theorem noReturn {x : List Char} (h : Settled x) : (' ' :: x).getLast? ≠ some '\r' := by
  intro ends
  rw [List.getLast?_cons] at ends
  cases hx : x.getLast? with
  | none =>
      rw [hx] at ends
      exact absurd ends (by decide)
  | some c =>
      rw [hx] at ends
      cases ends
      exact absurd (h.last _ hx).1 (by decide)

/-- The row of a settled text gives it back up to leading blanks. -/
theorem entry {x : List Char} (h : Settled x) (line : Nat) :
    ∃ v, Row.entry ⟨line, String.ofList (' ' :: x)⟩ = (.text line v, false) ∧
      trimLeft v = trimLeft x := by
  rcases List.eq_nil_or_concat x with rfl | ⟨front, c, rfl⟩
  · refine ⟨[], ?_, rfl⟩
    have blank : isBlank ' ' = true := by decide
    simp [Row.entry, blank]
  · obtain ⟨blank, mark⟩ := h.last c (by simp)
    refine ⟨' ' :: (front ++ [c]), ?_, ?_⟩
    · -- the last character stops the search for blanks and is no mark
      have reversed : (' ' :: (front ++ [c])).reverse.dropWhile isBlank =
          c :: (front.reverse ++ [' ']) := by
        simp [blank]
      simp only [Row.entry, String.toList_ofList, List.concat_eq_append, reversed]
      split
      next cs heq => exact absurd (List.cons.inj heq).1 mark
      next => simp
    · rw [List.concat_eq_append, trimLeft, List.dropWhile_cons_of_pos (by decide), trimLeft]

end Settled

/-! ### UTF-8 -/

/-- The byte of a character of ASCII. -/
def byteOf (c : Char) : UInt8 :=
  UInt8.ofNat c.toNat

/-- The bytes of a text are those of its parts. -/
theorem Utf8.encode_append (x y : List Char) :
    Utf8.encode (x ++ y) = Utf8.encode x ++ Utf8.encode y :=
  List.flatMap_append

/-- Characters of ASCII are one byte each. -/
theorem Utf8.encode_ascii {x : List Char} (h : ∀ c ∈ x, c.toNat < 0x80) :
    Utf8.encode x = x.map byteOf := by
  induction x with
  | nil => rfl
  | cons c x ih =>
      have small : c.utf8Size = 1 := by
        rw [Char.utf8Size_eq_one_iff, UInt32.le_iff_toNat_le]
        exact Nat.le_of_lt_succ (h c List.mem_cons_self)
      rw [Utf8.encode, List.flatMap_cons, String.utf8EncodeChar_eq_singleton small]
      exact congrArg (_ :: ·) (ih fun d hd => h d (List.mem_cons_of_mem _ hd))

/-- Graphic characters are ASCII. -/
theorem Graphic.ascii {c : Char} (h : Graphic c) : c.toNat < 0x80 :=
  Nat.lt_of_le_of_lt h.2 (by decide)

/-- The character of a byte of ASCII. -/
theorem toNat_ofUInt8 (b : UInt8) : (Char.ofUInt8 b).toNat = b.toNat := by
  show b.toUInt32.toNat = b.toNat
  simp

/-- The byte of the character of an ASCII byte is that byte. -/
theorem byteOf_ofUInt8 (b : UInt8) : byteOf (Char.ofUInt8 b) = b := by
  rw [byteOf, toNat_ofUInt8, UInt8.ofNat_toNat]

/-! ### Decimal integers -/

namespace Decimal

/-- Digits are graphic. -/
theorem graphic_of_isDigit {c : Char} (h : c.isDigit) : Graphic c := by
  simp only [Char.isDigit, Bool.and_eq_true, decide_eq_true_eq, UInt32.le_iff_toNat_le] at h
  exact ⟨Nat.le_trans (by decide) h.1, Nat.le_trans h.2 (by decide)⟩

/-- A number is written in digits. -/
theorem isDigit_of_mem_ofNat {n : Nat} {c : Char} (h : c ∈ ofNat n) : c.isDigit :=
  Nat.isDigit_of_mem_toDigits (by decide) (by decide) h

/-- Digits whose number does not leave the range are appended one by one. -/
theorem appendDigits_eq {limit : Nat} {beyond : Fault} :
    ∀ {ds : List Char} {n : Nat}, (∀ c ∈ ds, c.isDigit) → Nat.ofDigitChars 10 ds n ≤ limit →
      appendDigits limit beyond n ds = .ok (Nat.ofDigitChars 10 ds n)
  | [], n, _, _ => by rw [appendDigits, Nat.ofDigitChars_nil]
  | c :: ds, n, hd, h => by
      rw [Nat.ofDigitChars_cons] at h ⊢
      -- the number of all digits is no less than that of the first ones
      have bound : 10 * n + (c.toNat - '0'.toNat) ≤ limit := by
        refine Nat.le_trans ?_ h
        rw [Nat.ofDigitChars_eq_ofDigitChars_zero]
        exact Nat.le_trans (Nat.le_mul_of_pos_left _ (Nat.pow_pos (by decide)))
          (Nat.le_add_right _ _)
      simp only [appendDigits, hd c List.mem_cons_self, if_true, bound]
      exact appendDigits_eq (fun d hm => hd d (List.mem_cons_of_mem _ hm)) h

/-- The digits of a number within the limit are read as the number. -/
theorem appendDigits_ofNat {limit n : Nat} (beyond : Fault) (h : n ≤ limit) :
    appendDigits limit beyond 0 (ofNat n) = .ok n := by
  have value : Nat.ofDigitChars 10 (ofNat n) 0 = n := Nat.ofDigitChars_ten_toDigits
  rw [appendDigits_eq (fun c => isDigit_of_mem_ofNat) (by rwa [value]), value]

/-- A number is written with a digit first. -/
theorem exists_ofNat (n : Nat) : ∃ c ds, ofNat n = c :: ds ∧ c.isDigit := by
  obtain ⟨c, ds, h⟩ := List.exists_cons_of_ne_nil (Nat.toDigits_ne_nil (n := n) (b := 10))
  exact ⟨c, ds, h, isDigit_of_mem_ofNat (n := n) (by rw [ofNat, h]; exact List.mem_cons_self)⟩

/-- A natural number up to the greatest is read back. -/
theorem readNat_ofNat {greatest n : Nat} (h : n ≤ greatest) :
    readNat greatest (ofNat n) = .ok n := by
  have appended := appendDigits_ofNat .tooLarge h
  obtain ⟨c, ds, hn, hc⟩ := exists_ofNat n
  rw [hn] at appended ⊢
  have plus : c ≠ '+' := by rintro rfl; exact absurd hc (by decide)
  simp only [readNat]
  split
  next heq => cases heq
  next heq => exact absurd (List.cons.inj heq).1 plus
  next heq => exact absurd (List.cons.inj heq).1 plus
  next => exact appended

/-- So it is where a sign is allowed. -/
theorem readInt_ofNat {least greatest n : Nat} (h : n ≤ greatest) :
    readInt least greatest (ofNat n) = .ok n := by
  have natural := readNat_ofNat h
  obtain ⟨c, ds, hn, hc⟩ := exists_ofNat n
  rw [hn] at natural ⊢
  have minus : c ≠ '-' := by rintro rfl; exact absurd hc (by decide)
  simp only [readInt]
  split
  next heq => exact absurd (List.cons.inj heq).1 minus
  next heq => exact absurd (List.cons.inj heq).1 minus
  next => rw [natural]; rfl

/-- A negative number down to the least is read back. -/
theorem readInt_neg {least greatest n : Nat} (h : n ≤ least) :
    readInt least greatest ('-' :: ofNat n) = .ok (-n) := by
  have appended := appendDigits_ofNat .tooSmall h
  obtain ⟨c, ds, hn, -⟩ := exists_ofNat n
  rw [hn] at appended ⊢
  simp only [readInt, appended]
  rfl

/-- An integer is written in digits, with a sign before them if it is negative. -/
theorem toList_repr (i : Int) :
    (Int.repr i).toList = if 0 ≤ i then ofNat i.toNat else '-' :: ofNat (-i).toNat := by
  rw [Int.repr_eq_if]
  split
  · exact Nat.toList_repr
  · rw [String.toList_append, Nat.toList_repr]
    rfl

/-- An integer between the least and the greatest is read back. -/
theorem readInt_repr {least greatest : Nat} {i : Int} (h₁ : -(least : Int) ≤ i)
    (h₂ : i ≤ greatest) : readInt least greatest (Int.repr i).toList = .ok i := by
  rw [toList_repr]
  split
  · rw [readInt_ofNat (by omega)]
    exact congrArg Except.ok (by omega)
  · rw [readInt_neg (by omega)]
    exact congrArg Except.ok (by omega)

theorem readInt32_repr (v : Int32) : readInt32 (Int.repr v.toInt).toList = .ok v := by
  have least := v.minValue_le_toInt
  have greatest := v.toInt_le
  rw [Int32.toInt_minValue] at least
  rw [Int32.toInt_maxValue] at greatest
  have half : ((Int32.size / 2 : Nat) : Int) = 2 ^ 31 := by decide
  have below : ((Int32.size / 2 - 1 : Nat) : Int) = 2 ^ 31 - 1 := by decide
  rw [readInt32, readInt_repr (half ▸ least) (below ▸ greatest)]
  exact congrArg Except.ok v.ofInt_toInt

theorem readInt64_repr (v : Int64) : readInt64 (Int.repr v.toInt).toList = .ok v := by
  have least := v.minValue_le_toInt
  have greatest := v.toInt_le
  rw [Int64.toInt_minValue] at least
  rw [Int64.toInt_maxValue] at greatest
  have half : ((Int64.size / 2 : Nat) : Int) = 2 ^ 63 := by decide
  have below : ((Int64.size / 2 - 1 : Nat) : Int) = 2 ^ 63 - 1 := by decide
  rw [readInt64, readInt_repr (half ▸ least) (below ▸ greatest)]
  exact congrArg Except.ok v.ofInt_toInt

theorem readUInt32_ofNat (v : UInt32) : readUInt32 (ofNat v.toNat) = .ok v := by
  rw [readUInt32, readNat_ofNat (Nat.le_sub_one_of_lt v.toNat_lt_size)]
  exact congrArg Except.ok v.ofNat_toNat

theorem readUInt64_ofNat (v : UInt64) : readUInt64 (ofNat v.toNat) = .ok v := by
  rw [readUInt64, readNat_ofNat (Nat.le_sub_one_of_lt v.toNat_lt_size)]
  exact congrArg Except.ok v.ofNat_toNat

/-- Numbers are graphic. -/
theorem graphic_ofNat {n : Nat} : ∀ c ∈ ofNat n, Graphic c :=
  fun _ h => graphic_of_isDigit (isDigit_of_mem_ofNat h)

end Decimal

/-! ### Hexadecimal -/

namespace Hex

/-- What a digit below 16 is. -/
theorem digitChar_spec : ∀ n < 16,
    value? (Nat.digitChar n) = some n ∧ Graphic (Nat.digitChar n) ∧ Nat.digitChar n ≠ '?' := by
  decide

theorem graphic_ofByte (b : UInt8) : ∀ c ∈ ofByte b, Graphic c ∧ c ≠ '?' := by
  have bound := b.toNat_lt
  intro c hc
  simp only [ofByte, List.mem_cons, List.not_mem_nil, or_false] at hc
  rcases hc with rfl | rfl
  · exact (digitChar_spec _ (by omega)).2
  · exact (digitChar_spec _ (by omega)).2

/-- Hexadecimal digits are graphic, and none is a question mark. -/
theorem graphic_encode (b : Bytes) : ∀ c ∈ encode b, Graphic c ∧ c ≠ '?' := by
  intro c hc
  obtain ⟨x, -, hx⟩ := List.mem_flatMap.mp hc
  exact graphic_ofByte x c hx

/-- The two digits of a byte are read as the byte. -/
theorem byte?_ofByte (b : UInt8) :
    byte? (Nat.digitChar (b.toNat / 16)) (Nat.digitChar (b.toNat % 16)) = some b := by
  have bound := b.toNat_lt
  rw [byte?, (digitChar_spec (b.toNat / 16) (by omega)).1,
    (digitChar_spec (b.toNat % 16) (by omega)).1]
  exact congrArg some (by rw [Nat.div_add_mod, UInt8.ofNat_toNat])

theorem value?_byteOf : ∀ n < 16,
    value? (Char.ofUInt8 (byteOf (Nat.digitChar n))) = some n := by
  decide

/-- Bytes are read back from their digits, whatever position the first one has. -/
theorem decodePairs_encode :
    ∀ (b : Bytes) (position : Nat), decodePairs position ((encode b).map byteOf) = .ok b
  | [], _ => rfl
  | x :: b, position => by
      have bound := x.toNat_lt
      have pairs : (encode (x :: b)).map byteOf = byteOf (Nat.digitChar (x.toNat / 16)) ::
          byteOf (Nat.digitChar (x.toNat % 16)) :: (encode b).map byteOf := rfl
      rw [pairs, decodePairs, value?_byteOf _ (by omega), value?_byteOf _ (by omega)]
      simp only [decodePairs_encode b, Nat.div_add_mod, UInt8.ofNat_toNat]
      rfl

/-- There are two digits to a byte. -/
theorem length_encode (b : Bytes) : (encode b).length = 2 * b.length := by
  induction b with
  | nil => rfl
  | cons x b ih =>
      rw [encode, List.flatMap_cons, List.length_append, ← encode, ih, List.length_cons]
      simp only [ofByte, List.length_cons, List.length_nil]
      omega

/-- Bytes in hexadecimal are read back. -/
theorem decode_encode (b : Bytes) : decode (encode b) = .ok b := by
  simp only [decode, Utf8.encode_ascii fun c hc => (graphic_encode b c hc).1.ascii, List.length_map,
    length_encode, Nat.mul_mod_right]
  exact decodePairs_encode b 0

end Hex

end Text

end XdrText
