import XdrText.Name
import XdrText.Proofs.Text

/-!
# XdrText — names below names

The lines of a node have names below its own: the name itself or one that goes on with a dot or a
bracket (`Name.Below`).  Below the names of two fields of a struct, or of two elements of a
sequence, there is no common name.  A short source name is that of no bare source key.
-/

namespace XdrText.Name
open Text

/-! ### Characters -/

/-- A letter followed by letters, digits and underscores. -/
def isIdentifier (name : String) : Bool :=
  match name.toList with
  | [] => false
  | c :: cs => c.isAlpha && cs.all fun d => d.isAlphanum || d == '_'

/-- A name that a line can carry: it has no blank and no colon. -/
def Plain (name : String) : Prop :=
  ∀ c ∈ name.toList, isBlank c = false ∧ c ≠ ':'

instance (name : String) : Decidable (Plain name) :=
  List.decidableBAll _ name.toList

/-- A character at which a name goes on. -/
def isJoint (c : Char) : Bool :=
  c == '.' || c == '['

/-- Letters, digits and underscores are graphic, are none of the marks of a line, and join no
names. -/
theorem graphic_of_isAlphanum {c : Char} (h : c.isAlphanum ∨ c = '_') :
    Graphic c ∧ c ≠ ':' ∧ c ≠ '?' ∧ isJoint c = false := by
  rcases h with h | rfl
  · delta Char.isAlphanum Char.isAlpha Char.isUpper Char.isLower Char.isDigit at h
    simp only [Bool.or_eq_true, Bool.and_eq_true, decide_eq_true_eq, UInt32.le_iff_toNat_le] at h
    have range : 65 ≤ c.toNat ∧ c.toNat ≤ 90 ∨ 97 ≤ c.toNat ∧ c.toNat ≤ 122 ∨
        48 ≤ c.toNat ∧ c.toNat ≤ 57 := by
      rcases h with (h | h) | h
      · exact .inl h
      · exact .inr (.inl h)
      · exact .inr (.inr h)
    have ne : ∀ d : Char, d.toNat = 58 ∨ d.toNat = 63 ∨ d.toNat = 46 ∨ d.toNat = 91 → c ≠ d := by
      rintro d hd rfl
      omega
    refine ⟨⟨by omega, by omega⟩, ne ':' (by decide), ne '?' (by decide), ?_⟩
    simp only [isJoint, Bool.or_eq_false_iff, beq_eq_false_iff_ne]
    exact ⟨ne '.' (by decide), ne '[' (by decide)⟩
  · decide

/-- An identifier has nothing but such characters. -/
theorem mem_of_isIdentifier {name : String} (h : isIdentifier name) {c : Char}
    (hc : c ∈ name.toList) : Graphic c ∧ c ≠ ':' ∧ c ≠ '?' ∧ isJoint c = false := by
  simp only [isIdentifier] at h
  split at h
  · cases h
  next d ds hd =>
    rw [hd] at hc
    simp only [Bool.and_eq_true, List.all_eq_true, Bool.or_eq_true, beq_iff_eq] at h
    refine graphic_of_isAlphanum ?_
    rcases List.mem_cons.mp hc with rfl | hc
    · exact .inl (by rw [Char.isAlphanum, h.1]; rfl)
    · exact h.2 c hc

theorem ne_empty_of_isIdentifier {name : String} (h : isIdentifier name) : name ≠ "" := by
  rintro rfl
  exact absurd h (by decide)

/-- An identifier is plain. -/
theorem plain_of_isIdentifier {name : String} (h : isIdentifier name) : Plain name :=
  fun _ hc => ⟨(mem_of_isIdentifier h hc).1.isBlank, (mem_of_isIdentifier h hc).2.1⟩

theorem Plain.append {a b : String} (ha : Plain a) (hb : Plain b) : Plain (a ++ b) := by
  intro c hc
  rw [String.toList_append] at hc
  exact (List.mem_append.mp hc).elim (ha c) (hb c)

/-- The name of a field is plain where its parts are. -/
theorem Plain.child {name field : String} (h : Plain name) (hf : Plain field) :
    Plain (child name field) := by
  rw [Name.child]
  split
  · exact hf
  · exact (h.append (by decide)).append hf

/-- The name of an element is plain. -/
theorem Plain.index {name : String} (h : Plain name) (i : Nat) : Plain (index name i) := by
  have digits : Plain (Nat.repr i) := by
    intro c hc
    rw [Nat.toList_repr] at hc
    have digit := Decimal.isDigit_of_mem_ofNat hc
    exact ⟨(Decimal.graphic_of_isDigit digit).isBlank,
      by rintro rfl; exact absurd digit (by decide)⟩
  exact ((h.append (by decide)).append digits).append (by decide)

/-- The word under which an optional says whether it is there. -/
def selector (depth : Nat) : String :=
  String.join (List.replicate (depth - 1) "_inner") ++ "_present"

/-- The word for the presence of an optional says how deep it is by repetition. -/
theorem toList_selector (depth : Nat) : (selector depth).toList =
    (List.replicate (depth - 1) "_inner".toList).flatten ++ "_present".toList := by
  simp [selector, String.toList_join, List.flatMap]

theorem mem_selector {depth : Nat} {c : Char} (hc : c ∈ (selector depth).toList) :
    c ∈ "_inner_present".toList := by
  rw [toList_selector, List.mem_append] at hc
  rcases hc with hc | hc
  · obtain ⟨w, hw, hc⟩ := List.mem_flatten.mp hc
    rw [List.eq_of_mem_replicate hw] at hc
    exact List.mem_append_left "_present".toList hc
  · exact List.mem_append_right "_inner".toList hc

/-- The words for presence are plain. -/
theorem plain_selector (depth : Nat) : Plain (selector depth) :=
  fun c hc => (by decide : Plain "_inner_present") c (mem_selector hc)

/-! ### Names below a name -/

/-- The name itself, or one that goes on with a dot or a bracket; every name is below the root. -/
def Below (name n : String) : Prop :=
  name = "" ∨ n = name ∨ ∃ c rest, n.toList = name.toList ++ c :: rest ∧ isJoint c

/-- Each name is below itself. -/
theorem Below.refl (name : String) : Below name name :=
  .inr (.inl rfl)

/-- What stands before the name of a child. -/
def front (name : String) : List Char :=
  if name = "" then [] else name.toList ++ ['.']

/-- A name is joined to that of a field by a dot, but for the root, which has none. -/
theorem toList_child (name field : String) :
    (child name field).toList = front name ++ field.toList := by
  rw [child, front]
  split
  · rfl
  · simp

/-- Two fields under one name are told apart by their words. -/
theorem child_right_injective {name f g : String} (h : child name f = child name g) : f = g := by
  have same := congrArg String.toList h
  rw [toList_child, toList_child] at same
  exact String.toList_injective (List.append_cancel_left same)

/-- The name of an element has the index in brackets. -/
theorem toList_index (name : String) (i : Nat) :
    (index name i).toList = name.toList ++ '[' :: (Decimal.ofNat i ++ [']']) := by
  simp [index, Decimal.ofNat]

/-- A field is below what it is a field of. -/
theorem below_child (name field : String) : Below name (child name field) := by
  by_cases h : name = ""
  · exact .inl h
  · exact .inr (.inr ⟨'.', field.toList, by simp [toList_child, front, h], rfl⟩)

/-- An element is below what it is an element of. -/
theorem below_index (name : String) (i : Nat) : Below name (index name i) :=
  .inr (.inr ⟨'[', _, toList_index name i, rfl⟩)

/-- What is below a name is below whatever that is below.  The root is left out in between, as every
name is below it. -/
theorem Below.trans {a b c : String} (hab : Below a b) (hb : b ≠ "") (hbc : Below b c) :
    Below a c := by
  rcases hbc with rfl | rfl | ⟨x, rest, hc, hx⟩
  · exact absurd rfl hb
  · exact hab
  · rcases hab with rfl | rfl | ⟨y, tail, hb, hy⟩
    · exact .inl rfl
    · exact .inr (.inr ⟨x, rest, hc, hx⟩)
    · exact .inr (.inr ⟨y, tail ++ x :: rest, by rw [hc, hb]; simp, hy⟩)

theorem child_ne_empty {name field : String} (h : field ≠ "") : child name field ≠ "" := by
  intro h'
  have := congrArg String.toList h'
  rw [toList_child] at this
  exact h (String.toList_injective (List.append_eq_nil_iff.mp this).2)

theorem index_ne_empty (name : String) (i : Nat) : index name i ≠ "" := by
  intro h'
  have := congrArg String.toList h'
  rw [toList_index] at this
  simp at this

/-- What is below a field is below what it is a field of. -/
theorem Below.of_child {name field n : String} (hf : field ≠ "") (h : Below (child name field) n) :
    Below name n :=
  (below_child name field).trans (child_ne_empty hf) h

/-- What is below an element is below what it is an element of. -/
theorem Below.of_index {name n : String} {i : Nat} (h : Below (index name i) n) : Below name n :=
  (below_index name i).trans (index_ne_empty name i) h

/-- A name below a child goes on after the child's own name. -/
theorem Below.exists_tail {name n : String} (ne : name ≠ "") (h : Below name n) :
    ∃ tail, n.toList = name.toList ++ tail ∧ ∀ c, tail.head? = some c → isJoint c := by
  rcases h with h | rfl | ⟨c, rest, hn, hc⟩
  · exact absurd h ne
  · exact ⟨[], by simp, by simp⟩
  · exact ⟨c :: rest, hn, by rintro _ ⟨⟩; exact hc⟩

/-- A part of a name: it is not empty and does not go on. -/
structure Word (w : String) : Prop where
  ne_empty : w ≠ ""
  unjoint : ∀ c ∈ w.toList, isJoint c = false

/-- An identifier is a word. -/
theorem word_of_isIdentifier {name : String} (h : isIdentifier name) : Word name :=
  ⟨ne_empty_of_isIdentifier h, fun _ hc => (mem_of_isIdentifier h hc).2.2.2⟩

/-- Two fields have no name below both of them. -/
theorem Below.child_injective {name f g n : String} (hf : Word f) (hg : Word g)
    (h : Below (child name f) n) (h' : Below (child name g) n) : f = g := by
  -- the word ends where the name goes on
  have first : ∀ {x : String} {tail : List Char}, Word x →
      (∀ c, tail.head? = some c → isJoint c) →
        (x.toList ++ tail).takeWhile (fun c => !isJoint c) = x.toList := by
    intro x tail hx ht
    exact takeWhile_append_of_head (fun c hc => by simp [hx.unjoint c hc])
      fun c hc => by simp [ht c hc]
  obtain ⟨tail, hn, ht⟩ := h.exists_tail (child_ne_empty hf.ne_empty)
  obtain ⟨tail', hn', ht'⟩ := h'.exists_tail (child_ne_empty hg.ne_empty)
  rw [toList_child, List.append_assoc] at hn hn'
  have same : f.toList ++ tail = g.toList ++ tail' := List.append_cancel_left (hn.symm.trans hn')
  refine String.toList_injective ?_
  rw [← first hf ht, same, first hg ht']

/-- Different numbers are written differently. -/
theorem ofNat_injective {i j : Nat} (h : Decimal.ofNat i = Decimal.ofNat j) : i = j := by
  have value : ∀ n, Nat.ofDigitChars 10 (Decimal.ofNat n) 0 = n := fun _ =>
    Nat.ofDigitChars_ten_toDigits
  rw [← value i, h, value j]

/-- Two elements have no name below both of them. -/
theorem Below.index_injective {name n : String} {i j : Nat} (h : Below (index name i) n)
    (h' : Below (index name j) n) : i = j := by
  -- the index ends at its bracket
  have digits : ∀ (i : Nat) (tail : List Char),
      (Decimal.ofNat i ++ ']' :: tail).takeWhile (fun c => c ≠ ']') = Decimal.ofNat i := by
    intro i tail
    refine takeWhile_append_of_head (fun c hc => ?_) (by rintro _ ⟨⟩; rfl)
    have digit := Decimal.isDigit_of_mem_ofNat hc
    simp only [decide_eq_true_eq]
    rintro rfl
    exact absurd digit (by decide)
  obtain ⟨tail, hn, -⟩ := h.exists_tail (index_ne_empty name i)
  obtain ⟨tail', hn', -⟩ := h'.exists_tail (index_ne_empty name j)
  rw [toList_index, List.append_assoc] at hn hn'
  have same := List.append_cancel_left (hn.symm.trans hn')
  simp only [List.cons_append, List.append_assoc, List.nil_append,
    List.cons.injEq, true_and] at same
  refine ofNat_injective ?_
  rw [← digits i tail, same, digits j tail']

/-! ### Source names -/

/-- A name with an alias ends in the name of a bare source key, and the alias is the same but for
this end. -/
theorem sourceAlias?_eq_some {name short : String} (h : sourceAlias? name = some short) :
    ∃ start, name.toList = start ++ "tx.sourceAccountEd25519".toList ∧
      short.toList = start ++ "tx.sourceAccount".toList := by
  obtain ⟨start, hs, rfl⟩ := Option.map_eq_some_iff.mp h
  simp only [dropEnding?] at hs
  split at hs
  next suffix =>
    cases hs
    obtain ⟨start, hn⟩ := List.isSuffixOf_iff_suffix.mp suffix
    refine ⟨start, hn.symm, ?_⟩
    have length := congrArg List.length hn
    rw [List.length_append] at length
    rw [String.toList_append, String.toList_ofList]
    congr 1
    rw [← hn, List.take_append_of_le_length (by simp), List.take_of_length_le (by simp)]
  next => cases hs

/-- The short name is shorter. -/
theorem length_lt_of_sourceAlias? {name short : String} (h : sourceAlias? name = some short) :
    short.length < name.length := by
  obtain ⟨start, hlong, hshort⟩ := sourceAlias?_eq_some h
  rw [← String.length_toList, ← String.length_toList, hlong, hshort]
  simp

/-- A short source name is that of no bare source key. -/
theorem sourceAlias?_short {name short : String} (h : sourceAlias? name = some short) :
    sourceAlias? short = none := by
  obtain ⟨start, -, hshort⟩ := sourceAlias?_eq_some h
  cases hs : sourceAlias? short with
  | none => rfl
  | some other =>
      obtain ⟨start', hshort', -⟩ := sourceAlias?_eq_some hs
      have last := congrArg List.getLast? (hshort.symm.trans hshort')
      rw [List.getLast?_append, List.getLast?_append] at last
      exact absurd last (by simp)

/-- The short name of a plain name is plain. -/
theorem Plain.short {name short : String} (h : Plain name) (hs : sourceAlias? name = some short) :
    Plain short := by
  obtain ⟨start, hname, hshort⟩ := sourceAlias?_eq_some hs
  intro c hc
  rw [hshort] at hc
  rcases List.mem_append.mp hc with hc | hc
  · exact h c (by rw [hname]; exact List.mem_append_left _ hc)
  · exact (by decide : Plain "tx.sourceAccount") c hc

end XdrText.Name
