import Mathlib.Data.Char
import Mathlib.Data.List.Lex
import Mathlib.Data.List.TakeWhile
import XdrText.Proofs.Presence

/-!
# XdrText — names in the order of their bytes

A map keeps its names in ascending order, compared by code point.  That is the order of their UTF-8
bytes: where two texts differ at a character (`Diverges`), their bytes differ in the same direction,
since the first byte of a character grows with its length and the bytes that continue it are the
digits of its code point (`Utf8.diverges_encode`).  So UTF-8 keeps the order of texts, and a text
begins with another if and only if its bytes do.

**Looking for a beginning** (`Document.hasStart_taken`).  Whichever rows of a document have been
taken away, the first name that is left and whose bytes are not below those of a text tells whether
any name that is left begins with the text.
-/

namespace XdrText
open Text

namespace Text

/-- At the first place where two lists differ, the first has the lesser entry. -/
inductive Diverges {α : Type} [LT α] : List α → List α → Prop where
  | here {x y : α} {a b : List α} (less : x < y) : Diverges (x :: a) (y :: b)
  | after {x : α} {a b : List α} (h : Diverges a b) : Diverges (x :: a) (x :: b)

namespace Diverges
variable {α : Type} [LT α] {a b : List α}

/-- Whatever follows, the lists differ at the same place. -/
theorem append (h : Diverges a b) (r s : List α) : Diverges (a ++ r) (b ++ s) := by
  induction h with
  | here less => exact .here less
  | after _ ih => exact .after ih

/-- Whatever comes first, the lists differ behind it. -/
theorem prepend (common : List α) (h : Diverges a b) : Diverges (common ++ a) (common ++ b) := by
  induction common with
  | nil => exact h
  | cons x common ih => exact .after ih

/-- The list that has the lesser entry is the lesser one. -/
theorem lt (h : Diverges a b) : a < b := by
  induction h with
  | here less => exact .rel less
  | after _ ih => exact .cons ih

/-- Neither list begins with the other. -/
theorem not_begins [Std.Irrefl fun x y : α => x < y] (h : Diverges a b) :
    ¬ a <+: b ∧ ¬ b <+: a := by
  induction h with
  | @here x y a b less =>
      have ne : x ≠ y := fun same => Std.Irrefl.irrefl y (same ▸ less)
      exact ⟨fun begins => ne (List.cons_prefix_cons.mp begins).1,
        fun begins => ne (List.cons_prefix_cons.mp begins).1.symm⟩
  | after _ ih => simpa only [List.cons_prefix_cons, true_and] using ih

end Diverges

/-- One of two lists begins with the other, or they differ at some place. -/
theorem begins_or_diverges {α : Type} [LinearOrder α] :
    ∀ a b : List α, a <+: b ∨ b <+: a ∨ Diverges a b ∨ Diverges b a
  | [], _ => .inl List.nil_prefix
  | _ :: _, [] => .inr (.inl List.nil_prefix)
  | x :: a, y :: b => by
      rcases lt_trichotomy x y with less | rfl | more
      · exact .inr (.inr (.inl (.here less)))
      · rcases begins_or_diverges a b with h | h | h | h
        · exact .inl (List.cons_prefix_cons.mpr ⟨rfl, h⟩)
        · exact .inr (.inl (List.cons_prefix_cons.mpr ⟨rfl, h⟩))
        · exact .inr (.inr (.inl (.after h)))
        · exact .inr (.inr (.inr (.after h)))
      · exact .inr (.inr (.inr (.here more)))

namespace Utf8

/-! ### Characters -/

/-- The last `k` digits of a number in base 64, as the bytes that continue a character. -/
def continuation : (k : Nat) → (n : Nat) → Bytes
  | 0, _ => []
  | k + 1, n => UInt8.ofNat (n / 64 ^ k % 64 + 0x80) :: continuation k n

/-- The number of bytes that continue the character of a code point. -/
def following (n : Nat) : Nat :=
  if n ≤ 0x7F then 0 else if n ≤ 0x7FF then 1 else if n ≤ 0xFFFF then 2 else 3

/-- The first byte of the character of a code point. -/
def leading (n : Nat) : Nat :=
  if n ≤ 0x7F then n
  else if n ≤ 0x7FF then n / 64 + 0xC0
  else if n ≤ 0xFFFF then n / 64 ^ 2 + 0xE0
  else n / 64 ^ 3 + 0xF0

theorem toNat_lt (c : Char) : c.toNat < 0x110000 := by
  rcases c.valid with low | ⟨-, high⟩
  · exact Nat.lt_trans low (by decide)
  · exact high

/-- The UTF-8 of a character is its first byte and those that continue it. -/
theorem utf8EncodeChar_eq (c : Char) : String.utf8EncodeChar c =
    UInt8.ofNat (leading c.toNat) :: continuation (following c.toNat) c.toNat := by
  have valid := toNat_lt c
  simp only [String.utf8EncodeChar, Char.toNat] at valid ⊢
  generalize c.val.toNat = n at valid
  -- the first byte has room for all the digits that are left
  have room (digits bits : Nat) (h : n / digits < bits) : n / digits % bits = n / digits :=
    Nat.mod_eq_of_lt h
  simp only [leading, following]
  split_ifs with one two three
  · rfl
  · rw [room 64 32 (by omega)]
    simp [continuation]
  · rw [room 4096 16 (by omega)]
    simp [continuation]
  · rw [room 262144 8 (by omega)]
    simp [continuation]

theorem leading_lt {n : Nat} (valid : n < 0x110000) : leading n < 256 := by
  rw [leading]
  split_ifs <;> omega

/-- The greater code point has the greater first byte, or as many bytes with greater digits. -/
theorem leading_lt_or_eq {m n : Nat} (less : m < n) : leading m < leading n ∨
    leading m = leading n ∧ following m = following n ∧
      m % 64 ^ following m < n % 64 ^ following n := by
  simp only [leading, following]
  split_ifs <;> omega

/-- The lesser number has the lesser byte at the first digit where the two differ. -/
theorem diverges_continuation {m n : Nat} : ∀ {k : Nat}, m % 64 ^ k < n % 64 ^ k →
    Diverges (continuation k m) (continuation k n)
  | 0, less => by simp [Nat.mod_one] at less
  | k + 1, less => by
      have byte (i : Nat) : (UInt8.ofNat (i / 64 ^ k % 64 + 0x80)).toNat = i / 64 ^ k % 64 + 0x80 :=
        UInt8.toNat_ofNat_of_lt' (show i / 64 ^ k % 64 + 0x80 < 256 by omega)
      rw [Nat.mod_pow_succ, Nat.mod_pow_succ] at less
      rw [continuation, continuation]
      rcases Nat.lt_trichotomy (m / 64 ^ k % 64) (n / 64 ^ k % 64) with lower | same | higher
      · exact .here (UInt8.lt_iff_toNat_lt.mpr (by rw [byte, byte]; omega))
      · rw [same] at less ⊢
        exact .after (diverges_continuation (Nat.lt_of_add_lt_add_right less))
      · -- a greater digit outweighs all that follow it
        have above := Nat.mul_le_mul_left (64 ^ k) (Nat.succ_le_of_lt higher)
        have rest := Nat.mod_lt n (Nat.pow_pos (n := k) (show 0 < 64 by decide))
        rw [Nat.mul_succ] at above
        omega

/-- Different characters have bytes that differ, in the order of their code points. -/
theorem diverges_utf8EncodeChar {c d : Char} (less : c < d) :
    Diverges (String.utf8EncodeChar c) (String.utf8EncodeChar d) := by
  have byte (e : Char) : (UInt8.ofNat (leading e.toNat)).toNat = leading e.toNat :=
    UInt8.toNat_ofNat_of_lt' (leading_lt (toNat_lt e))
  rw [utf8EncodeChar_eq, utf8EncodeChar_eq]
  rcases leading_lt_or_eq (show c.toNat < d.toNat from less) with lower | ⟨same, length, digits⟩
  · exact .here (UInt8.lt_iff_toNat_lt.mpr (by rwa [byte, byte]))
  · rw [same, length]
    exact .after (diverges_continuation (length ▸ digits))

/-! ### Texts -/

theorem diverges_encode {x y : List Char} (h : Diverges x y) : Diverges (encode x) (encode y) := by
  induction h with
  | here less => exact (diverges_utf8EncodeChar less).append _ _
  | @after c _ _ _ ih => exact ih.prepend (String.utf8EncodeChar c)

theorem encode_eq_nil_iff {x : List Char} : encode x = [] ↔ x = [] := by
  cases x with
  | nil => simp [encode]
  | cons c x => simp [encode, utf8EncodeChar_eq]

/-- A text begins with another if and only if its bytes do. -/
theorem encode_begins_iff {x y : List Char} : encode x <+: encode y ↔ x <+: y := by
  constructor
  · intro bytes
    rcases begins_or_diverges x y with h | ⟨rest, rfl⟩ | h | h
    · exact h
    · rw [encode_append] at bytes
      have none : encode rest = [] := by
        have short := bytes.length_le
        rw [List.length_append] at short
        exact List.eq_nil_of_length_eq_zero (by omega)
      rw [encode_eq_nil_iff.mp none, List.append_nil]
    · exact absurd bytes (diverges_encode h).not_begins.1
    · exact absurd bytes (diverges_encode h).not_begins.2
  · rintro ⟨rest, rfl⟩
    rw [encode_append]
    exact List.prefix_append ..

/-- The lesser text has the lesser bytes. -/
theorem encode_lt_encode {x y : List Char} (less : x < y) : encode x < encode y := by
  rcases begins_or_diverges x y with ⟨rest, rfl⟩ | ⟨rest, rfl⟩ | h | h
  · have proper : encode rest ≠ [] := fun none => by
      rw [encode_eq_nil_iff.mp none, List.append_nil] at less
      exact List.lt_irrefl x less
    obtain ⟨b, bytes, hrest⟩ := List.exists_cons_of_ne_nil proper
    calc encode x
      _ = encode x ++ [] := (List.append_nil _).symm
      _ < encode x ++ encode rest := List.append_left_lt (hrest ▸ List.nil_lt_cons b bytes)
      _ = encode (x ++ rest) := (encode_append x rest).symm
  · exact absurd less (NameMap.not_lt_of_begins (List.prefix_append ..))
  · exact (diverges_encode h).lt
  · exact absurd less (List.lt_asymm h.lt)

/-- The order of code points is that of UTF-8 bytes. -/
theorem encode_lt_iff {x y : List Char} : encode x < encode y ↔ x < y := by
  refine ⟨fun bytes => ?_, encode_lt_encode⟩
  rcases lt_trichotomy x y with less | rfl | more
  · exact less
  · exact absurd bytes (List.lt_irrefl _)
  · exact absurd bytes (List.lt_asymm (encode_lt_encode more))

end Utf8
end Text

namespace Name

/-- Names are compared by their UTF-8. -/
def bytes (name : String) : Bytes :=
  Utf8.encode name.toList

theorem bytes_lt_iff {a b : String} : bytes a < bytes b ↔ a < b :=
  Utf8.encode_lt_iff

/-- A name begins with another if and only if its bytes do. -/
theorem startsWith_eq (start name : String) :
    startsWith start name = (bytes start).isPrefixOf (bytes name) := by
  rw [Bool.eq_iff_iff, startsWith, List.isPrefixOf_iff_prefix, List.isPrefixOf_iff_prefix]
  exact Utf8.encode_begins_iff.symm

end Name

namespace NameMap
variable {α : Type}

theorem mem_names_erase {m : NameMap α} {name n : String} :
    n ∈ (m.erase name).names ↔ n ∈ m.names ∧ n ≠ name := by
  simp [names, erase]

theorem mem_names_foldl_erase {taken : List String} {n : String} : ∀ {m : NameMap α},
    n ∈ (taken.foldl erase m).names ↔ n ∈ m.names ∧ n ∉ taken := by
  induction taken with
  | nil => simp
  | cons name taken ih =>
      intro m
      rw [List.foldl_cons, ih, mem_names_erase, List.mem_cons, not_or, and_assoc]

theorem pairwise_names (m : NameMap α) : m.names.Pairwise fun a b => Name.bytes a < Name.bytes b :=
  List.pairwise_map.mpr (m.sorted.imp Name.bytes_lt_iff.mpr)

/-- Of all names only the first that is not below the text is looked at. -/
theorem hasStart_eq_find? (m : NameMap α) (start : String) : m.hasStart start =
    (m.names.find? fun n => ¬ Name.bytes n < Name.bytes start).any fun n =>
      (Name.bytes start).isPrefixOf (Name.bytes n) := by
  have first : (m.names.find? fun n => ¬ Name.bytes n < Name.bytes start) =
      (m.entries.dropWhile fun e => e.1 < start).head?.map Prod.fst := by
    rw [← List.find?_not_eq_head?_dropWhile, names, List.find?_map]
    simp only [Name.bytes_lt_iff, decide_not, Function.comp_def]
  rw [hasStart, first]
  simp only [← Name.startsWith_eq]
  cases m.entries.dropWhile fun e => e.1 < start <;> rfl

end NameMap

namespace Reading

/-- To take a row leaves the table without its name, whether it was there or not. -/
theorem rest_take (name : String) (t : Table) : (take name t).rest = t.erase name := by
  rw [take]
  cases h : t.get? name with
  | none => exact (NameMap.erase_of_get?_eq_none h).symm
  | some row => rfl

/-- To take several rows leaves the table without any of their names. -/
theorem rest_mapM_take (taken : List String) (t : Table) :
    (taken.mapM take t).rest = taken.foldl NameMap.erase t := by
  induction taken generalizing t with
  | nil => rfl
  | cons name taken ih =>
      rw [List.mapM_cons, List.foldl_cons, ← rest_take, ← ih]
      rfl

end Reading

namespace Document

/-- What is left of the table of a document when rows are taken away, one after another, whether
they are there or not. -/
def remaining (doc : String) (taken : List String) : Table :=
  taken.foldl NameMap.erase (table doc)

/-- The names that are left when rows have been taken ascend in the order of their bytes.  Of them
the first that is not below a text is looked at, and it tells whether any of them begins with the
text. -/
theorem hasStart_taken (doc : String) (taken : List String) (start : String) :
    (taken.mapM Reading.take (table doc)).rest = remaining doc taken ∧
      (∀ n, n ∈ (remaining doc taken).names ↔ n ∈ (table doc).names ∧ n ∉ taken) ∧
      ((remaining doc taken).names.Pairwise fun a b => Name.bytes a < Name.bytes b) ∧
      ((remaining doc taken).hasStart start =
        ((remaining doc taken).names.find? fun n => ¬ Name.bytes n < Name.bytes start).any fun n =>
          (Name.bytes start).isPrefixOf (Name.bytes n)) ∧
      ((remaining doc taken).hasStart start = true ↔
        ∃ n ∈ (remaining doc taken).names, ∃ tail, n = start ++ tail) := by
  have begins : (remaining doc taken).hasStart start = true ↔
      ∃ n ∈ (remaining doc taken).names, ∃ tail, n = start ++ tail := by
    simp only [NameMap.hasStart_iff, Name.startsWith_iff]
  exact ⟨Reading.rest_mapM_take taken (table doc), fun _ => NameMap.mem_names_foldl_erase,
    NameMap.pairwise_names _, NameMap.hasStart_eq_find? _ start, begins⟩

example : (remaining "x.y._present: true\nxz: 1\n" ["x.y._present"]).hasStart "x." = false ∧
    (remaining "x.y._present: true\nxz: 1\n" ["x.y._present"]).hasStart "x" = true := by
  decide +kernel

end Document
end XdrText
