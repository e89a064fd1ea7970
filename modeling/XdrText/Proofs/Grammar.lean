import XdrText.Form.Literal
import XdrText.Proofs.Sound
import XdrText.Proofs.Text

/-!
# XdrText — the grammar of string literals

Between its quotes a literal is a row of items (`Form.Literal.Item`): bytes that stand for
themselves, and escapes, which begin with a backslash.  An item is known by its first bytes, so a
byte string can be split into items before a quote in one way only (`Form.Literal.Enclosed.unique`),
and reading is to split it (`Form.Literal.scanBody_eq_ok_iff`).

**Grammar** (`Form.Literal.scan_grammar`).  What stands behind an opening quote is read if and only
if it splits into items before a quote, and as the bytes that these stand for.  The two bytes behind
`\x` are taken as a number in hexadecimal, and such a number may have a sign: `\x+5` is read like
`\x05`.  The grammar without signs describes exactly the texts in which no such item comes up.
-/

namespace XdrText
open Text

namespace Text.Hex

/-- The character is the hexadecimal digit `n`, in lower or upper case. -/
def IsDigit (c : Char) (n : Nat) : Prop :=
  n < 16 ∧ (c = Nat.digitChar n ∨ c = (Nat.digitChar n).toUpper)

theorem value?_of_isDigit {c : Char} {n : Nat} (h : IsDigit c n) : value? c = some n := by
  have digits : ∀ n < 16, value? (Nat.digitChar n) = some n ∧
      value? (Nat.digitChar n).toUpper = some n := by
    decide
  obtain ⟨bound, rfl | rfl⟩ := h
  · exact (digits n bound).1
  · exact (digits n bound).2

/-- The value of a digit and no other is read. -/
theorem value?_eq_some_iff {c : Char} {n : Nat} : value? c = some n ↔ IsDigit c n := by
  refine ⟨fun h => ?_, value?_of_isDigit⟩
  have lower : ∀ n < 10, (Nat.digitChar n).toNat = n + 0x30 := by decide
  have letters : ∀ n < 16, 10 ≤ n → (Nat.digitChar n).toNat = n + 0x57 ∧
      (Nat.digitChar n).toUpper.toNat = n + 0x37 := by
    decide
  simp only [value?] at h
  split at h
  next range =>
    cases h
    refine ⟨by omega, .inl (Char.toNat_inj.mp ?_)⟩
    rw [lower _ (by omega)]
    omega
  split at h
  next range =>
    cases h
    refine ⟨by omega, .inr (Char.toNat_inj.mp ?_)⟩
    rw [(letters _ (by omega) (by omega)).2]
    omega
  split at h
  next range =>
    cases h
    refine ⟨by omega, .inl (Char.toNat_inj.mp ?_)⟩
    rw [(letters _ (by omega) (by omega)).1]
    omega
  next => cases h

/-- Two digits stand for a byte, the high one before the low one. -/
theorem byte?_eq_some_iff {high low : Char} {b : UInt8} : byte? high low = some b ↔
    ∃ m n, IsDigit high m ∧ IsDigit low n ∧ b = UInt8.ofNat (16 * m + n) := by
  simp only [byte?, Option.bind_eq_bind, Option.bind_eq_some_iff, value?_eq_some_iff,
    Option.pure_def, Option.some.injEq]
  constructor
  · rintro ⟨m, hm, n, hn, rfl⟩
    exact ⟨m, n, hm, hn, rfl⟩
  · rintro ⟨m, n, hm, hn, rfl⟩
    exact ⟨m, hm, n, hn, rfl⟩

end Text.Hex

namespace Form.Literal

/-- A byte as it can be spelt between the quotes. -/
inductive Item where
  /-- Any byte but the quote and the backslash. -/
  | plain (b : UInt8) (h : b ≠ 0x22 ∧ b ≠ 0x5C)
  /-- A backslash and `n`, `t` or `r`. -/
  | lineFeed | tab | carriageReturn
  /-- A backslash, `x` and two digits. -/
  | hex (high low : UInt8) (m n : Nat) (hm : Hex.IsDigit (Char.ofUInt8 high) m)
      (hn : Hex.IsDigit (Char.ofUInt8 low) n)
  /-- A backslash, `x`, a `+` and one digit. -/
  | signed (low : UInt8) (n : Nat) (hn : Hex.IsDigit (Char.ofUInt8 low) n)
  /-- A backslash and any other byte. -/
  | other (b : UInt8) (h : b ∉ [0x6E, 0x74, 0x72, 0x78])

namespace Item

/-- The bytes that an item takes up between the quotes. -/
def spelling : Item → Bytes
  | plain b _ => [b]
  | lineFeed => [0x5C, 0x6E]
  | tab => [0x5C, 0x74]
  | carriageReturn => [0x5C, 0x72]
  | hex high low .. => [0x5C, 0x78, high, low]
  | signed low .. => [0x5C, 0x78, 0x2B, low]
  | other b _ => [0x5C, b]

/-- The byte that an item stands for. -/
def byte : Item → UInt8
  | plain b _ | other b _ => b
  | lineFeed => 0x0A
  | tab => 0x09
  | carriageReturn => 0x0D
  | hex _ _ m n .. => UInt8.ofNat (16 * m + n)
  | signed _ n _ => UInt8.ofNat n

def Signed : Item → Prop
  | signed .. => True
  | _ => False

/-- No item begins with a quote. -/
theorem spelling_ne_quote {i : Item} {x y : Bytes} : i.spelling ++ x ≠ 0x22 :: y := by
  cases i with
  | plain b h => exact fun same => h.1 (List.cons.inj same).1
  | _ => simp [spelling]

/-- The first bytes of a text say what item it begins with. -/
theorem unique {i j : Item} {x y : Bytes} (h : i.spelling ++ x = j.spelling ++ y) :
    i = j ∧ x = y := by
  have digit : ∀ {c : Char} {m n : Nat}, Hex.IsDigit c m → Hex.IsDigit c n → m = n := fun hm hn =>
    Option.some.inj ((Hex.value?_of_isDigit hm).symm.trans (Hex.value?_of_isDigit hn))
  have plus : ∀ n, ¬ Hex.IsDigit (Char.ofUInt8 0x2B) n := fun n hn => by
    have value := Hex.value?_of_isDigit hn
    cases value
  -- two bytes tell the items apart, but for a sign in the place of a digit
  cases i <;> cases j <;>
    simp only [spelling, List.cons_append, List.nil_append, List.cons.injEq] at h <;> grind

end Item

/-- The items are what a text holds before a quote. -/
def Enclosed (items : List Item) (text : Bytes) : Prop :=
  ∃ tail, text = items.flatMap Item.spelling ++ 0x22 :: tail

/-- The item that a text begins with is read as its byte. -/
theorem scanBody_spelling (i : Item) (rest : Bytes) :
    scanBody (i.spelling ++ rest) = (i.byte :: ·) <$> scanBody rest := by
  rw [scanBody.eq_def]
  cases i with
  | plain b h => simp only [Item.spelling, Item.byte, List.singleton_append, h.1, h.2, if_false]
  | lineFeed | tab | carriageReturn => rfl
  | hex high low m n hm hn =>
      have plus : high ≠ 0x2B := by
        rintro rfl
        cases Hex.value?_of_isDigit hm
      have read : escapedByte? high low = some (UInt8.ofNat (16 * m + n)) := by
        rw [escapedByte?, if_neg plus, Hex.byte?_eq_some_iff]
        exact ⟨m, n, hm, hn, rfl⟩
      simp only [Item.spelling, Item.byte, List.cons_append, List.nil_append, read]
      rfl
  | signed low n hn =>
      have read : escapedByte? 0x2B low = some (UInt8.ofNat n) := by
        rw [escapedByte?, if_pos rfl, Hex.value?_of_isDigit hn]
        rfl
      simp only [Item.spelling, Item.byte, List.cons_append, List.nil_append, read]
      rfl
  | other b h =>
      simp only [List.mem_cons, List.not_mem_nil, or_false, not_or] at h
      simp [Item.spelling, Item.byte, h]

theorem scanBody_items (tail : Bytes) : ∀ items : List Item,
    scanBody (items.flatMap Item.spelling ++ 0x22 :: tail) = .ok (items.map Item.byte)
  | [] => by rw [List.flatMap_nil, List.nil_append, scanBody.eq_def]; rfl
  | i :: items => by
      rw [List.flatMap_cons, List.append_assoc, scanBody_spelling, scanBody_items tail items]
      rfl

namespace Enclosed

theorem cons {items : List Item} {text : Bytes} (i : Item) (h : Enclosed items text) :
    Enclosed (i :: items) (i.spelling ++ text) := by
  obtain ⟨tail, rfl⟩ := h
  exact ⟨tail, by rw [List.flatMap_cons, List.append_assoc]⟩

/-- There is one way to split a text into items before a quote. -/
theorem unique : ∀ {items others : List Item} {text : Bytes},
    Enclosed items text → Enclosed others text → items = others
  | [], [], _, _, _ => rfl
  | [], j :: others, _, ⟨_, rfl⟩, ⟨_, same⟩ => by
      rw [List.flatMap_cons, List.append_assoc] at same
      exact absurd same.symm Item.spelling_ne_quote
  | i :: items, [], _, ⟨_, rfl⟩, ⟨_, same⟩ => by
      rw [List.flatMap_cons, List.append_assoc] at same
      exact absurd same Item.spelling_ne_quote
  | i :: items, j :: others, _, ⟨tail, rfl⟩, ⟨tail', same⟩ => by
      rw [List.flatMap_cons, List.append_assoc, List.flatMap_cons, List.append_assoc] at same
      obtain ⟨rfl, rest⟩ := Item.unique same
      rw [unique ⟨tail, rfl⟩ ⟨tail', rest⟩]

end Enclosed

/-- The two bytes behind `\x` make up an item, with a sign or without. -/
theorem exists_item_of_escapedByte? {high low b : UInt8} (h : escapedByte? high low = some b) :
    ∃ i : Item, i.spelling = [0x5C, 0x78, high, low] ∧ i.byte = b := by
  rw [escapedByte?] at h
  split at h
  next plus =>
    obtain ⟨n, hn, rfl⟩ := Option.map_eq_some_iff.mp h
    exact ⟨.signed low n (Hex.value?_eq_some_iff.mp hn), by rw [plus]; rfl, rfl⟩
  next =>
    obtain ⟨m, n, hm, hn, rfl⟩ := Hex.byte?_eq_some_iff.mp h
    exact ⟨.hex high low m n hm hn, rfl, rfl⟩

/-- What is read splits into items before a quote. -/
theorem exists_items {text : Bytes} : ∀ {out : Bytes}, scanBody text = .ok out →
    ∃ items, Enclosed items text ∧ out = items.map Item.byte := by
  -- an item is read, and then the rest
  have read : ∀ {rest : Bytes} (i : Item), (∀ {out}, scanBody rest = .ok out →
      ∃ items, Enclosed items rest ∧ out = items.map Item.byte) →
      ∀ {out}, (i.byte :: ·) <$> scanBody rest = .ok out →
        ∃ items, Enclosed items (i.spelling ++ rest) ∧ out = items.map Item.byte := by
    intro rest i ih out h
    obtain ⟨bs, hbs, rfl⟩ := Except.map_eq_ok.mp h
    obtain ⟨items, enclosed, rfl⟩ := ih hbs
    exact ⟨i :: items, enclosed.cons i, rfl⟩
  fun_induction scanBody text with
  | case1 | case3 | case8 | case9 => exact fun h => nomatch h
  | case2 rest =>
      rintro _ ⟨⟩
      exact ⟨[], ⟨rest, rfl⟩, rfl⟩
  | case4 _ _ ih => exact read .lineFeed ih
  | case5 _ _ _ ih => exact read .tab ih
  | case6 _ _ _ _ ih => exact read .carriageReturn ih
  | case7 high low rest b hb _ _ _ _ ih =>
      intro out h
      obtain ⟨i, spelt, rfl⟩ := exists_item_of_escapedByte? hb
      have item := read i ih h
      rwa [spelt] at item
  | case10 e rest feed tab back hex _ ih =>
      exact read (.other e (by simp [feed, tab, back, hex])) ih
  | case11 b rest quote slash ih => exact read (.plain b ⟨quote, slash⟩) ih

/-- Reading is to split a text into items before a quote. -/
theorem scanBody_eq_ok_iff {text out : Bytes} :
    scanBody text = .ok out ↔ ∃ items, Enclosed items text ∧ out = items.map Item.byte := by
  refine ⟨exists_items, ?_⟩
  rintro ⟨items, ⟨tail, rfl⟩, rfl⟩
  exact scanBody_items tail items

/-- What stands behind an opening quote is read if and only if it splits into items before a quote,
and is refused otherwise.  The grammar without signs is that of the text exactly if no item of it
has a sign. -/
theorem scan_grammar {s body : List Char} (quoted : trimLeft s = '"' :: body) :
    (∀ out, scan s = .ok out ↔
      ∃ items, Enclosed items (Utf8.encode body) ∧ out = items.map Item.byte) ∧
    ((∃ f, scan s = .error f) ↔ ¬ ∃ items, Enclosed items (Utf8.encode body)) ∧
    ((∀ out, scan s = .ok out ↔ ∃ items, (Enclosed items (Utf8.encode body) ∧
        ∀ i ∈ items, ¬ i.Signed) ∧ out = items.map Item.byte) ↔
      ∀ items, Enclosed items (Utf8.encode body) → ∀ i ∈ items, ¬ i.Signed) := by
  have read : scan s = scanBody (Utf8.encode body) := by simp only [scan, quoted]
  refine ⟨fun out => by rw [read, scanBody_eq_ok_iff], ?_, ?_, ?_⟩
  · cases h : scanBody (Utf8.encode body) with
    | ok out =>
        obtain ⟨items, enclosed, -⟩ := scanBody_eq_ok_iff.mp h
        simp only [read, h, reduceCtorEq, exists_false, false_iff, not_not]
        exact ⟨items, enclosed⟩
    | error f =>
        refine iff_of_true ⟨f, read.trans h⟩ ?_
        rintro ⟨items, enclosed⟩
        have accepted := scanBody_eq_ok_iff.mpr ⟨items, enclosed, rfl⟩
        rw [h] at accepted
        cases accepted
  · -- the items that are read are the only ones that the text splits into
    intro exact items enclosed
    obtain ⟨others, ⟨split, unsigned⟩, -⟩ := (exact _).mp (read.trans
      (scanBody_eq_ok_iff.mpr ⟨items, enclosed, rfl⟩))
    rwa [enclosed.unique split]
  · intro unsigned out
    rw [read, scanBody_eq_ok_iff]
    constructor
    · rintro ⟨items, enclosed, rfl⟩
      exact ⟨items, ⟨enclosed, unsigned items enclosed⟩, rfl⟩
    · rintro ⟨items, ⟨enclosed, -⟩, rfl⟩
      exact ⟨items, enclosed, rfl⟩

/-- Behind blanks, and with a tail, a literal with items of several kinds; a character of two bytes
is split by the backslash before it. -/
theorem scan_grammar_mixed :
    trimLeft " \t\"\\x4A\\n\\\"\\é\" tail".toList = '"' :: "\\x4A\\n\\\"\\é\" tail".toList ∧
      ∃ items, Enclosed items (Utf8.encode "\\x4A\\n\\\"\\é\" tail".toList) ∧
        [0x4A, 0x0A, 0x22, 0xC3, 0xA9] = items.map Item.byte := by
  have quoted : trimLeft " \t\"\\x4A\\n\\\"\\é\" tail".toList =
      '"' :: "\\x4A\\n\\\"\\é\" tail".toList := by
    decide +kernel
  exact ⟨quoted, ((scan_grammar quoted).1 _).mp (by decide +kernel)⟩

/-- The literal `"\x+5"` is read, and no items without a sign make it up. -/
theorem scan_signed :
    ¬ ((∃ out, scan "\"\\x+5\"".toList = .ok out) ↔
      ∃ items, Enclosed items (Utf8.encode "\\x+5\"".toList) ∧ ∀ i ∈ items, ¬ i.Signed) := by
  intro claimed
  have five : Hex.IsDigit (Char.ofUInt8 0x35) 5 := ⟨by decide, .inl (by decide)⟩
  have text : Utf8.encode "\\x+5\"".toList = [0x5C, 0x78, 0x2B, 0x35, 0x22] := by decide +kernel
  have enclosed : Enclosed [.signed 0x35 5 five] (Utf8.encode "\\x+5\"".toList) := ⟨[], text⟩
  obtain ⟨items, split, unsigned⟩ := claimed.mp ⟨[0x05], by decide +kernel⟩
  rw [split.unique enclosed] at unsigned
  exact unsigned _ List.mem_cons_self trivial

end Form.Literal
end XdrText
