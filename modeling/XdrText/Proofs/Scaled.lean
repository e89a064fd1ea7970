import Mathlib.Algebra.Order.Field.Rat
import Mathlib.Tactic.FieldSimp
import XdrText.Proofs.Form

/-!
# XdrText — scaled integers are exact

What is shown of a scaled integer is a numeral (`Form.Scaled.Numeral`): a whole part in groups of
three digits, a fraction and an exponent, none of them with a zero that could be left out.  The
digits of the whole part are those of the quotient by the unit (`Form.Scaled.exists_groups`), and
the fraction ends at the last digit of the remainder that is not zero
(`Form.Scaled.exists_fraction`).

**Exactness** (`Form.Scaled.render_exact`).  For every amount and every exponent the text is a
numeral, and its value with the exponent applied is the amount.
-/

namespace XdrText.Form.Scaled
open XdrText.Text

/-- A numeral: the whole part is a first group of one to three digits and further groups of
three. -/
structure Numeral where
  negative : Bool
  first : List Char
  groups : List (List Char)
  fraction : List Char
  exponent : Nat
  first_length : 1 ≤ first.length ∧ first.length ≤ 3
  groups_length : ∀ g ∈ groups, g.length = 3
  digits : ∀ c ∈ first ++ groups.flatten ++ fraction, c.isDigit
  /-- Only the number zero begins with the digit zero. -/
  leading : first.head? = some '0' → first = ['0'] ∧ groups = []
  fraction_length : fraction.length ≤ exponent
  trailing : fraction.getLast? ≠ some '0'

namespace Numeral

/-- The whole part with a comma before each further group. -/
def whole (n : Numeral) : List Char :=
  n.first ++ n.groups.flatMap (',' :: ·)

/-- The sign, the whole part, the digits behind a point, if there are any, and the exponent. -/
def text (n : Numeral) : List Char :=
  (if n.negative then ['-'] else []) ++ n.whole ++
    (if n.fraction = [] then [] else '.' :: n.fraction) ++ 'e' :: Decimal.ofNat n.exponent

/-- The decimal number in front of the exponent, its commas removed. -/
def value (n : Numeral) : ℚ :=
  (if n.negative then -1 else 1) * (Nat.ofDigitChars 10 (n.whole.filter (· ≠ ',')) 0 +
    Nat.ofDigitChars 10 n.fraction 0 / 10 ^ n.fraction.length)

/-- Without the commas the digits are left. -/
theorem filter_whole (n : Numeral) : n.whole.filter (· ≠ ',') = n.first ++ n.groups.flatten := by
  have keep : ∀ x : List Char, x ⊆ n.first ++ n.groups.flatten → x.filter (· ≠ ',') = x := by
    intro x hx
    refine List.filter_eq_self.mpr fun c hc => decide_eq_true ?_
    rintro rfl
    exact absurd (n.digits _ (List.mem_append_left _ (hx hc))) (by decide)
  have groups : ∀ gs : List (List Char), gs.flatten ⊆ n.first ++ n.groups.flatten →
      (gs.flatMap (',' :: ·)).filter (· ≠ ',') = gs.flatten := by
    intro gs hgs
    induction gs with
    | nil => rfl
    | cons g gs ih =>
        rw [List.flatten_cons, List.append_subset] at hgs
        rw [List.flatMap_cons, List.filter_append, List.filter_cons_of_neg (by simp), keep g hgs.1,
          ih hgs.2, List.flatten_cons]
  rw [whole, List.filter_append, keep _ (List.subset_append_left _ _),
    groups _ (List.subset_append_right _ _)]

end Numeral

/-! ### The whole part -/

/-- Read from the end, three more digits are one more group. -/
theorem exists_separate :
    ∀ {s : List Char}, s ≠ [] → ∃ (first : List Char) (groups : List (List Char)),
      s.reverse = first ++ groups.flatten ∧
        (separate s).reverse = first ++ groups.flatMap (',' :: ·) ∧
        (1 ≤ first.length ∧ first.length ≤ 3) ∧ ∀ g ∈ groups, g.length = 3
  | [a], _ => ⟨[a], [], rfl, rfl, by simp, by simp⟩
  | [a, b], _ => ⟨[b, a], [], rfl, rfl, by simp, by simp⟩
  | [a, b, c], _ => ⟨[c, b, a], [], rfl, rfl, by simp, by simp⟩
  | a :: b :: c :: d :: rest, _ => by
      obtain ⟨first, groups, digits, separated, length, full⟩ :=
        exists_separate (List.cons_ne_nil d rest)
      have three : (a :: b :: c :: d :: rest).reverse = (d :: rest).reverse ++ [c, b, a] := by simp
      have comma : (separate (a :: b :: c :: d :: rest)).reverse =
          (separate (d :: rest)).reverse ++ [',', c, b, a] := by
        simp [separate]
      refine ⟨first, groups ++ [[c, b, a]], ?_, ?_, length, ?_⟩
      · simp [three, digits]
      · simp [comma, separated]
      · simpa [or_imp, forall_and] using full

/-- Only the number zero begins with a zero. -/
theorem eq_zero_of_head? {n : Nat} (h : (Decimal.ofNat n).head? = some '0') : n = 0 := by
  induction n using Nat.strongRecOn with
  | _ n ih =>
      by_cases small : n < 10
      · rw [Decimal.ofNat, Nat.toDigits_of_lt_base small, List.head?_cons, Option.some.injEq] at h
        have digits : ∀ n < 10, Nat.digitChar n = '0' → n = 0 := by decide
        exact digits n small h
      · -- the digits of the quotient come first
        have front : (Decimal.ofNat (n / 10)).head? = some '0' := by
          rw [Decimal.ofNat, Nat.toDigits_of_base_le (by decide) (by omega),
            List.head?_append_of_ne_nil _ Nat.toDigits_ne_nil] at h
          exact h
        have quotient := ih (n / 10) (by omega) front
        omega

/-- A number is shown as a group of at most three digits and full groups behind commas. -/
theorem exists_groups (n : Nat) : ∃ (first : List Char) (groups : List (List Char)),
    Decimal.ofNat n = first ++ groups.flatten ∧ grouped n = first ++ groups.flatMap (',' :: ·) ∧
      (1 ≤ first.length ∧ first.length ≤ 3) ∧ (∀ g ∈ groups, g.length = 3) ∧
        (first.head? = some '0' → first = ['0'] ∧ groups = []) := by
  have ne : (Decimal.ofNat n).reverse ≠ [] :=
    List.reverse_eq_nil_iff.not.mpr Nat.toDigits_ne_nil
  obtain ⟨first, groups, digits, shown, length, full⟩ := exists_separate ne
  rw [List.reverse_reverse] at digits
  refine ⟨first, groups, digits, shown, length, full, fun zero => ?_⟩
  have some_first : first ≠ [] := by
    rintro rfl
    cases zero
  rw [eq_zero_of_head? (n := n) (by rw [digits, List.head?_append_of_ne_nil _ some_first, zero])]
    at digits
  obtain ⟨rfl, none⟩ :=
    (List.append_eq_singleton_iff.mp digits.symm).resolve_left fun h => some_first h.1
  refine ⟨rfl, List.eq_nil_iff_forall_not_mem.mpr fun g hg => ?_⟩
  have empty : g = [] := List.flatten_eq_nil_iff.mp none g hg
  exact absurd (full g hg) (by simp [empty])

/-! ### The fraction -/

/-- Zeros at the end of a numeral are factors of ten. -/
theorem ofDigitChars_replicate (ds : List Char) (k : Nat) :
    Nat.ofDigitChars 10 (ds ++ List.replicate k '0') 0 = Nat.ofDigitChars 10 ds 0 * 10 ^ k := by
  rw [Nat.ofDigitChars_append, Nat.ofDigitChars_replicate_zero, Nat.mul_comm]

/-- A remainder is padded to as many digits as the exponent says. -/
theorem length_padded {e f : Nat} (pos : 0 < f) (h : f < 10 ^ e) :
    (Decimal.padded e f).length = e := by
  have ne : e ≠ 0 := by
    rintro rfl
    omega
  have fits : (Decimal.ofNat f).length ≤ e :=
    (Nat.length_toDigits_le_iff (by decide) (Nat.pos_of_ne_zero ne)).mpr h
  rw [Decimal.padded, List.length_append, List.length_replicate]
  omega

/-- The fraction has the digits of the padded remainder up to the last one that is not zero. -/
theorem exists_fraction {e f : Nat} (h : f < 10 ^ e) : ∃ ds k,
    fraction e f = (if ds = [] then [] else '.' :: ds) ∧ ds.length + k = e ∧
      Nat.ofDigitChars 10 ds 0 * 10 ^ k = f ∧ (∀ c ∈ ds, c.isDigit) ∧ ds.getLast? ≠ some '0' := by
  by_cases zero : f = 0
  · exact ⟨[], e, by simp [fraction, zero], by simp, by simp [zero], by simp, by simp⟩
  obtain ⟨k, whole, last⟩ := exists_replicate '0' (Decimal.padded e f)
  have shown : fraction e f = '.' :: ((Decimal.padded e f).reverse.dropWhile (· = '0')).reverse :=
    if_neg zero
  generalize ((Decimal.padded e f).reverse.dropWhile (· = '0')).reverse = ds at whole last shown
  have length := congrArg List.length whole
  rw [length_padded (Nat.pos_of_ne_zero zero) h, List.length_append,
    List.length_replicate] at length
  have value : Nat.ofDigitChars 10 ds 0 * 10 ^ k = f := by
    rw [← ofDigitChars_replicate, ← whole, Decimal.padded, Nat.ofDigitChars_append,
      Nat.ofDigitChars_replicate_zero, Nat.mul_zero]
    exact Nat.ofDigitChars_ten_toDigits
  have ne : ds ≠ [] := by
    rintro rfl
    exact zero (by simpa using value.symm)
  refine ⟨ds, k, by rw [shown, if_neg ne], length.symm, value, fun c hc => ?_, last⟩
  have digit : c ∈ Decimal.padded e f := whole ▸ List.mem_append_left _ hc
  rcases List.mem_append.mp digit with zeros | digit
  · rw [List.eq_of_mem_replicate zeros]
    decide
  · exact Decimal.isDigit_of_mem_ofNat digit

/-! ### The numeral -/

theorem exponent_eq (exp : Nat) : exponent exp = if 10 ^ exp < 2 ^ 64 then exp else 0 := by
  rw [exponent]
  congr 1
  rw [eq_iff_iff]
  constructor
  · intro h
    calc 10 ^ exp ≤ 10 ^ 19 := Nat.pow_le_pow_right (by decide) (by omega)
      _ < 2 ^ 64 := by decide
  · intro h
    by_contra above
    have large : 10 ^ 20 ≤ 10 ^ exp := Nat.pow_le_pow_right (by decide) (by omega)
    exact absurd (Nat.lt_of_le_of_lt large h) (by decide)

/-- Whole part and fraction with the exponent applied are quotient and remainder. -/
theorem magnitude_eq {m e k whole : Nat} {ds : List Char} (hw : whole = m / 10 ^ e)
    (hf : Nat.ofDigitChars 10 ds 0 * 10 ^ k = m % 10 ^ e) (places : ds.length + k = e) :
    ((whole : ℚ) + Nat.ofDigitChars 10 ds 0 / 10 ^ ds.length) * 10 ^ e = m := by
  have parts : whole * 10 ^ e + Nat.ofDigitChars 10 ds 0 * 10 ^ k = m := by
    rw [hw, hf]
    exact Nat.div_add_mod' m (10 ^ e)
  rw [← parts, ← places]
  push_cast
  rw [pow_add]
  field_simp

/-- What is shown of a number, for any exponent. -/
theorem exists_numeral (exp : Nat) (v : Int) : ∃ n : Numeral, render exp v = n.text ∧
    (n.negative ↔ v < 0) ∧ n.exponent = exponent exp ∧ n.value * 10 ^ n.exponent = v := by
  simp only [render, Nat.pow_eq]
  generalize exponent exp = e
  obtain ⟨first, groups, digits, shown, length, full, leading⟩ := exists_groups (v.natAbs / 10 ^ e)
  obtain ⟨ds, k, point, places, remainder, decimals, last⟩ :=
    exists_fraction (Nat.mod_lt v.natAbs (Nat.pow_pos (n := e) (show 0 < 10 by decide)))
  let n : Numeral :=
    { negative := v < 0, first, groups, fraction := ds, exponent := e
      first_length := length
      groups_length := full
      digits := fun c hc => (List.mem_append.mp hc).elim
        (fun hc => Decimal.isDigit_of_mem_ofNat (digits ▸ hc)) (decimals c)
      leading
      fraction_length := by omega
      trailing := last }
  have whole : Nat.ofDigitChars 10 (n.whole.filter (· ≠ ',')) 0 = v.natAbs / 10 ^ e := by
    rw [n.filter_whole, ← digits]
    exact Nat.ofDigitChars_ten_toDigits
  refine ⟨n, ?_, decide_eq_true_iff, rfl, ?_⟩
  · simp only [Numeral.text, Numeral.whole, n, shown, point, decide_eq_true_eq]
  · rw [Numeral.value, mul_assoc, magnitude_eq whole remainder places, Nat.cast_natAbs]
    by_cases negative : v < 0
    · simp [n, negative, abs_of_neg negative]
    · simp [n, negative, abs_of_nonneg (Int.not_lt.mp negative)]

/-- The text of an amount is a numeral whose value, with the exponent applied, is the amount.  The
exponent is the one that is asked for unless its power of ten leaves the range of unsigned 64-bit
integers. -/
theorem render_exact (val : Int64) (exp : UInt32) : ∃ n : Numeral,
    render exp.toNat val.toInt = n.text ∧ (n.negative ↔ val < 0) ∧
      n.exponent = (if 10 ^ exp.toNat < 2 ^ 64 then exp.toNat else 0) ∧
      n.value * 10 ^ n.exponent = val.toInt := by
  rw [← exponent_eq, Int64.lt_iff_toInt_lt]
  exact exists_numeral exp.toNat val.toInt

end XdrText.Form.Scaled
