import XdrText.Proofs.Form

/-!
# XdrText — codes and strings with commentary

The text of a code or of a string need not be all of a value: blanks may stand before it, and
commentary behind it.  A code ends at the first blank, or where its block is full, and a string at
the closing quote; neither can come up inside, since a blank, a quote and a backslash in the data
are escaped.

**Codes** (`Form.Code.scan_commented`).  A code before a blank is read as its bytes up to the last
one that is not zero, filled up to the length of the block, or refused as too long.

**Strings** (`Form.Literal.scan_enclosed`).  A string is read back as it is, whatever stands behind
it.
-/

namespace XdrText.Form
open XdrText.Text

namespace Code

/-- A code behind blanks, and before a blank or the end, is read as its bytes up to the last one
that is not zero, filled up with zeros; it is too long for a block that these bytes do not fit.
Nothing is written of a code that is all zero, so a tail would be read in its place: there it has to
be empty. -/
theorem scan_commented (n : Nat) {b : Bytes} {blanks tail : List Char}
    (hb : ∀ c ∈ blanks, isBlank c = true)
    (ht : tail = [] ∨ (∃ x ∈ b, x ≠ 0) ∧ ∃ c, tail.head? = some c ∧ isBlank c = true) :
    (∃ k, b = significant b ++ List.replicate k 0 ∧ (significant b).getLast? ≠ some 0) ∧
      scan n (blanks ++ render b ++ tail) =
        (if (significant b).length ≤ n then
          .ok (significant b ++ List.replicate (n - (significant b).length) 0)
        else .error .tooLong) ∧
      ∀ c ∈ render b, 0x21 ≤ c.toNat ∧ c.toNat ≤ 0x7E ∧ c ≠ '?' := by
  obtain ⟨k, whole, last⟩ := significant_append b
  have blank : ∀ c, tail.head? = some c → isBlank c = true := by
    rcases ht with rfl | ⟨-, c, hc, hblank⟩
    · simp
    · intro d hd
      obtain rfl := Option.some.inj (hc.symm.trans hd)
      exact hblank
  have alone : render b = [] → tail = [] := by
    intro empty
    rcases ht with rfl | ⟨shown, -⟩
    · rfl
    · exact absurd shown (render_eq_nil.mp empty)
  -- the blanks before the code are all that is trimmed
  have trimmed : trimLeft (blanks ++ render b ++ tail) = render b ++ tail := by
    rw [List.append_assoc, trimLeft_append hb, trimLeft_render_append alone]
  refine ⟨⟨k, whole, fun h => last 0 h rfl⟩, scan_render_append trimmed blank, fun c hc => ?_⟩
  obtain ⟨⟨low, high⟩, mark⟩ := graphic_render b c hc
  exact ⟨low, high, mark⟩

/-- A code with a zero inside, and with bytes that have to be escaped, before a note: it is read
into six bytes, and is too long for three. -/
theorem scan_commented_escapes :
    (∀ c ∈ [' ', '\t'], isBlank c = true) ∧ (∃ x ∈ ([0x5C, 0, 0xFF, 0x3F, 0] : Bytes), x ≠ 0) ∧
      scan 6 ([' ', '\t'] ++ render [0x5C, 0, 0xFF, 0x3F, 0] ++ " (note)".toList) =
        .ok [0x5C, 0, 0xFF, 0x3F, 0, 0] ∧
      scan 3 ([' ', '\t'] ++ render [0x5C, 0, 0xFF, 0x3F, 0] ++ " (note)".toList) =
        .error .tooLong := by
  have blanks : ∀ c ∈ [' ', '\t'], isBlank c = true := forall_of_all (by decide)
  have shown : ∃ x ∈ ([0x5C, 0, 0xFF, 0x3F, 0] : Bytes), x ≠ 0 := by decide
  have tail : " (note)".toList = [] ∨ (∃ x ∈ ([0x5C, 0, 0xFF, 0x3F, 0] : Bytes), x ≠ 0) ∧
      ∃ c, " (note)".toList.head? = some c ∧ isBlank c = true :=
    .inr ⟨shown, ' ', by decide, by decide⟩
  exact ⟨blanks, shown, (scan_commented 6 blanks tail).2.1, (scan_commented 3 blanks tail).2.1⟩

end Code

namespace Literal

/-- A string behind blanks is read back byte for byte whatever follows its closing quote.  Its text
stays on its line. -/
theorem scan_enclosed (b : Bytes) {blanks : List Char} (hb : ∀ c ∈ blanks, isBlank c = true)
    (tail : List Char) :
    scan (blanks ++ render b ++ tail) = .ok b ∧
      (∀ c ∈ render b, 0x20 ≤ c.toNat ∧ c.toNat ≤ 0x7E) ∧ '\n' ∉ render b ∧ '\r' ∉ render b := by
  -- the opening quote is no blank
  have trimmed : trimLeft (blanks ++ render b ++ tail) = render b ++ tail := by
    rw [List.append_assoc, trimLeft_append hb]
    exact trimLeft_of_head fun c hc => by cases hc; decide
  have printable := printable_render b
  exact ⟨scan_render_append trimmed, printable, fun h => absurd (printable _ h) (by decide),
    fun h => absurd (printable _ h) (by decide)⟩

/-- A byte of each way of writing one, before text that would go on with any of them. -/
theorem scan_enclosed_escapes :
    (∀ c ∈ [' ', '\t'], isBlank c = true) ∧
      scan ([' ', '\t'] ++ render [0x22, 0x5C, 0x0A, 0x09, 0x0D, 0x41, 0xFF] ++
          "41\" \\x22".toList) =
        .ok [0x22, 0x5C, 0x0A, 0x09, 0x0D, 0x41, 0xFF] := by
  have blanks : ∀ c ∈ [' ', '\t'], isBlank c = true := forall_of_all (by decide)
  exact ⟨blanks, (scan_enclosed _ blanks _).1⟩

end Literal

end XdrText.Form
