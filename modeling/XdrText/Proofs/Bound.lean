import XdrText.Proofs.Judgement
import XdrText.Proofs.Leaf
import XdrText.Proofs.Place

/-!
# XdrText — counts and data beyond their bounds

A count or data beyond its bound is reported and cut down.  What is counted depends on the node: the
number in the row of a length, the bytes of a literal, or those of opaque data (`Measure`).  So each
bound is that of a node of the tree, with the row that it bounds (`Schema.Bounds`).

A text that a rule cuts down comes to the same as the text within the bound, apart from the fault
(`Rule.Clamps`).  Only the rules for lengths, for leaves and for the bodies of signatures cut
anything down.
-/

namespace XdrText
open Text Form Key

/-! ### Measures -/

/-- What of the text of a row is bounded. -/
inductive Measure where
  /-- The number that it is. -/
  | number
  /-- The bytes of the literal. -/
  | literal
  /-- The bytes in hexadecimal. -/
  | octets
  deriving DecidableEq, Repr

namespace Measure

/-- How much a text is. -/
def size? (s : List Char) : Measure → Option Nat
  | .number => (Decimal.readUInt64 (firstToken s)).toOption.map UInt64.toNat
  | .literal => (Literal.scan s).toOption.map List.length
  | .octets => (Octets.scan s).toOption.map List.length

/-- The text within the bound: the greatest number, or the first bytes. -/
def within? (max : Nat) (s : List Char) : Measure → Option String
  | .number => some (Nat.repr max)
  | .literal => (Literal.scan s).toOption.map fun data =>
      String.ofList (Literal.render (data.take max))
  | .octets => (Octets.scan s).toOption.map fun data =>
      String.ofList (Octets.render (data.take max))

/-- The text is more than the bound allows, and `form` is it within the bound. -/
structure Exceeds (m : Measure) (max size : Nat) (s : List Char) (form : String) : Prop where
  sized : m.size? s = some size
  beyond : max < size
  cut : m.within? max s = some form

/-- The text within a bound is settled, so it is read as it stands. -/
theorem settled_within {m : Measure} {max : Nat} {s : List Char} {form : String}
    (h : m.within? max s = some form) : Settled form.toList := by
  cases m with
  | number =>
      cases h
      rw [toList_natRepr]
      exact .of_graphic Decimal.graphic_ofNat
        fun hq => by simpa using Decimal.isDigit_of_mem_ofNat hq
  | literal =>
      obtain ⟨data, -, rfl⟩ := Option.map_eq_some_iff.mp h
      rw [String.toList_ofList]
      exact Literal.settled_render _
  | octets =>
      obtain ⟨data, -, rfl⟩ := Option.map_eq_some_iff.mp h
      rw [String.toList_ofList]
      exact Octets.settled_render _

/-- A literal that is too long exceeds its bound, and is cut to its first bytes. -/
theorem exceeds_literal {s : List Char} {data : Bytes} {max : Nat} (h : Literal.scan s = .ok data)
    (beyond : max < data.length) :
    literal.Exceeds max data.length s (String.ofList (Literal.render (data.take max))) where
  sized := by simp only [size?, h]; rfl
  beyond := beyond
  cut := by simp only [within?, h]; rfl

/-- Octets that are too many exceed their bound, and are cut to the first ones. -/
theorem exceeds_octets {s : List Char} {data : Bytes} {max : Nat} (h : Octets.scan s = .ok data)
    (beyond : max < data.length) :
    octets.Exceeds max data.length s (String.ofList (Octets.render (data.take max))) where
  sized := by simp only [size?, h]; rfl
  beyond := beyond
  cut := by simp only [within?, h]; rfl

/-- The form within the bound is read as the first bytes. -/
theorem scan_literal {s : List Char} {data : Bytes}
    (h : trimLeft s = trimLeft (String.ofList (Literal.render data)).toList) :
    Literal.scan s = .ok data := by
  rw [String.toList_ofList, Literal.trimLeft_render] at h
  exact Literal.scan_render h

/-- Octets in their own form are read back from any leading blanks. -/
theorem scan_octets {s : List Char} {data : Bytes}
    (h : trimLeft s = trimLeft (String.ofList (Octets.render data)).toList) :
    Octets.scan s = .ok data := by
  rw [String.toList_ofList] at h
  exact Octets.scan_render (firstToken_congr h)

end Measure

/-- The row, the bound and the measure of a node with a name, if it is bounded. -/
def Value.bound? (name : String) : Value → Option (String × Nat × Measure)
  | .leaf (.string _ max) => some (name, max.toNat, .literal)
  | .leaf (.bytes _ max) => some (name, max.toNat, .octets)
  | .signature _ => some (Name.child name "signature", Signature.maximum, .octets)
  | .seq _ max _ => some (Name.length name, max.toNat, .number)
  | _ => none

/-- A node of a tree with a name is bounded, by the row of `field`. -/
def Schema.Bounds (s : Schema) (name : String) (v : Value) (field : String)
    (max : Nat) (m : Measure) : Prop :=
  ∃ path n x, s.nameAt? name v path = some n ∧ v.follow? path = some x ∧
    x.bound? n = some (field, max, m)

namespace Schema.Bounds
variable {s : Schema} {name n field : String} {v a : Value} {max : Nat} {m : Measure}

theorem own (h : v.bound? name = some (field, max, m)) : s.Bounds name v field max m :=
  ⟨[], name, v, rfl, rfl, h⟩

/-- The bound of a part is a bound of the whole. -/
theorem part (step : Step) (hn : s.stepName? name v step = some n) (ha : v.child? step = some a)
    (h : s.Bounds n a field max m) : s.Bounds name v field max m := by
  obtain ⟨path, n', x, named, there, bound⟩ := h
  exact ⟨step :: path, n', x, by simpa [nameAt?, hn, ha] using named,
    by simpa [Value.follow?, ha] using there, bound⟩

end Schema.Bounds

/-! ### Rules -/

/-- Which rows bound what a step comes to. -/
abbrev Site (α : Type) : Type :=
  α → String → Nat → Measure → Prop

/-- The site of a step that reports no excess. -/
def Site.none {α : Type} : Site α :=
  fun _ _ _ _ => False

/-- A text that the rule cuts down comes to the same in the form within the bound, without a
fault. -/
def Rule.Clamps {α : Type} (name : String) (site : Site α) (rule : Rule α) : Prop :=
  ∀ old s field size max, (rule old s).2 = some (.tooLong field size max) →
    field = name ∧ ∃ m form, site (rule old s).1 field max m ∧ m.Exceeds max size s form ∧
      ∀ s', trimLeft s' = trimLeft form.toList → rule old s' = ((rule old s).1, none)

/-- An excess states its name, its size and its bound, and the size is beyond the bound. -/
theorem Cause.excess?_eq_some {name field : String} {size size' max max' : Nat}
    (h : Cause.excess? name size max = some (.tooLong field size' max')) :
    max < size ∧ field = name ∧ size' = size ∧ max' = max := by
  rw [Cause.excess?] at h
  split at h
  next beyond =>
    cases h
    exact ⟨beyond, rfl, rfl, rfl⟩
  next => cases h

theorem Cause.excess?_of_le {name : String} {size max : Nat} (h : size ≤ max) :
    Cause.excess? name size max = none :=
  if_neg (Nat.not_lt.mpr h)

namespace Rule.Clamps
variable {α : Type} {name : String} {rule : Rule α}

/-- A rule that reports no excess has nothing to cut down. -/
theorem never (h : ∀ old s field size max, (rule old s).2 ≠ some (.tooLong field size max)) :
    rule.Clamps name .none :=
  fun old s field size max excess => absurd excess (h old s field size max)

/-- The length of a sequence. -/
theorem count {max : Nat} (hmax : max < 2 ^ 64) : (Reader.countRule name max).Clamps name
    fun _ field bound m => field = name ∧ bound = max ∧ m = .number := by
  intro old s field size bound excess
  simp only [Reader.countRule, Rule.parsed, Reader.parseNumber] at excess ⊢
  cases hn : Decimal.readUInt64 (firstToken s) with
  | error f =>
      rw [hn] at excess
      cases excess
  | ok n =>
      rw [hn] at excess
      obtain ⟨beyond, rfl, rfl, rfl⟩ := Cause.excess?_eq_some excess
      refine ⟨rfl, .number, Nat.repr bound, ⟨rfl, rfl, rfl⟩, ⟨?_, beyond, rfl⟩,
        fun s' trimmed => ?_⟩
      · simp only [Measure.size?, hn]
        rfl
      · have greatest : Decimal.readUInt64 (firstToken s') = .ok (UInt64.ofNat bound) := by
          have token : firstToken (Decimal.ofNat bound) = Decimal.ofNat bound :=
            firstToken_self fun c hc => (Decimal.graphic_ofNat c hc).isBlank
          have value := Decimal.readUInt64_ofNat (UInt64.ofNat bound)
          rw [UInt64.toNat_ofNat_of_lt' hmax] at value
          rw [firstToken_congr trimmed, toList_natRepr, token, value]
        have same : (UInt64.ofNat bound).toNat = bound := UInt64.toNat_ofNat_of_lt' hmax
        simp only [greatest, Except.mapError, same, Nat.min_self, Nat.min_eq_right beyond.le,
          Cause.excess?_of_le (Nat.le_refl bound)]

/-- Data cut down once stays as it is. -/
theorem take_clamped (data : Bytes) (max : Nat) :
    ((data.take max).take max, Cause.excess? name (data.take max).length max) =
      (data.take max, none) := by
  rw [List.take_take, Nat.min_self, Cause.excess?_of_le (List.length_take_le _ _)]

/-- The body of a signature. -/
theorem body : (Reader.bodyRule name).Clamps name
    fun _ field max m => field = name ∧ max = Signature.maximum ∧ m = .octets := by
  have read : ∀ {old s data}, Octets.scan s = .ok data → Reader.bodyRule name old s =
      (data.take Signature.maximum, Cause.excess? name data.length Signature.maximum) := by
    intro old s data h
    simp only [Reader.bodyRule, Rule.parsed, h, Except.mapError_ok]
  intro old s field size max excess
  cases hs : Octets.scan s with
  | error f =>
      simp only [Reader.bodyRule, Rule.parsed, hs, Except.mapError_error] at excess
      cases excess
  | ok data =>
      rw [read hs] at excess ⊢
      obtain ⟨beyond, rfl, rfl, rfl⟩ := Cause.excess?_eq_some excess
      refine ⟨rfl, .octets, _, ⟨rfl, rfl, rfl⟩, Measure.exceeds_octets hs beyond,
        fun s' trimmed => ?_⟩
      rw [read (Measure.scan_octets trimmed), take_clamped]

section
variable {r : Reader} {old : Bytes} {bound : UInt32} {s : List Char} {data : Bytes}

theorem leafRule_string (h : Literal.scan s = .ok data) :
    r.leafRule name (.string old bound) s =
      (.string (data.take bound.toNat) bound, Cause.excess? name data.length bound.toNat) := by
  simp only [Reader.leafRule, Rule.choose, Reader.leafParser?, Option.map_some, Rule.parsed, h]
  rfl

theorem leafRule_bytes (h : Octets.scan s = .ok data) :
    r.leafRule name (.bytes old bound) s =
      (.bytes (data.take bound.toNat) bound, Cause.excess? name data.length bound.toNat) := by
  simp only [Reader.leafRule, Rule.choose, Reader.leafParser?, Option.map_some, Rule.parsed, h]
  rfl

end

/-- Only strings and opaque data of variable length are too long. -/
theorem exists_excess {r : Reader} {old : Leaf} {s : List Char} {field : String} {size max : Nat}
    (h : (r.leafRule name old s).2 = some (.tooLong field size max)) :
    (∃ before bound data, old = .string before bound ∧ Literal.scan s = .ok data) ∨
      ∃ before bound data, old = .bytes before bound ∧ Octets.scan s = .ok data := by
  simp only [Reader.leafRule, Rule.choose] at h
  cases hp : r.leafParser? old with
  | none =>
      rw [hp] at h
      cases h
  | some parse =>
      simp only [hp, Option.map_some, Rule.parsed] at h
      cases hs : parse s with
      | error f =>
          rw [hs] at h
          cases h
      | ok l =>
          rw [hs] at h
          have ty := (Reader.leafParser?_ok hp hs).1
          cases l with
          | string data bound =>
              obtain ⟨before, rfl⟩ : ∃ before, old = .string before bound := by
                cases old <;> cases ty
                exact ⟨_, rfl⟩
              cases hp
              obtain ⟨_, hs, same⟩ := Except.map_eq_ok.mp hs
              exact .inl ⟨before, bound, _, rfl, Except.mapError_eq_ok.mp hs⟩
          | bytes data bound =>
              obtain ⟨before, rfl⟩ : ∃ before, old = .bytes before bound := by
                cases old <;> cases ty
                exact ⟨_, rfl⟩
              cases hp
              obtain ⟨_, hs, same⟩ := Except.map_eq_ok.mp hs
              exact .inr ⟨before, bound, _, rfl, Except.mapError_eq_ok.mp hs⟩
          | _ => cases h

/-- A string or opaque data of variable length. -/
theorem leaf {r : Reader} : (r.leafRule name).Clamps name
    fun l field max m => (Value.leaf l).bound? name = some (field, max, m) := by
  intro old s field size max excess
  rcases exists_excess excess with ⟨before, bound, data, rfl, hs⟩ | ⟨before, bound, data, rfl, hs⟩
  · rw [leafRule_string hs] at excess ⊢
    obtain ⟨beyond, rfl, rfl, rfl⟩ := Cause.excess?_eq_some excess
    refine ⟨rfl, .literal, _, rfl, Measure.exceeds_literal hs beyond, fun s' trimmed => ?_⟩
    rw [leafRule_string (Measure.scan_literal trimmed), List.take_take, Nat.min_self,
      Cause.excess?_of_le (List.length_take_le _ _)]
  · rw [leafRule_bytes hs] at excess ⊢
    obtain ⟨beyond, rfl, rfl, rfl⟩ := Cause.excess?_eq_some excess
    refine ⟨rfl, .octets, _, rfl, Measure.exceeds_octets hs beyond, fun s' trimmed => ?_⟩
    rw [leafRule_bytes (Measure.scan_octets trimmed), List.take_take, Nat.min_self,
      Cause.excess?_of_le (List.length_take_le _ _)]

/-! Rules without a bound -/

/-- A source account has a fixed length, so its text is never in excess. -/
theorem source : Reader.sourceRule.Clamps name .none := by
  refine never fun old s field size max => ?_
  simp only [Reader.sourceRule, Rule.parsed]
  split
  next a _ => cases a <;> simp
  next => simp

theorem hint : Reader.hintRule.Clamps name .none := by
  refine never fun old s field size max => ?_
  simp only [Reader.hintRule, Rule.parsed]
  split <;> simp

theorem presence {selector : String} : (Reader.presenceRule selector).Clamps name .none := by
  refine never fun old s field size max => ?_
  simp only [Reader.presenceRule]
  split
  · simp
  · split <;> simp

theorem tag {r : Reader} {u : ResolvedUnion} {tagName : String} :
    (r.tagRule u tagName).Clamps name .none := by
  refine never fun old s field size max => ?_
  simp only [Reader.tagRule, Rule.choose]
  cases r.tagParser? u.tagType with
  | none => simp
  | some parse =>
      simp only [Option.map_some, Rule.parsed]
      split
      · split <;> simp
      · simp

end Rule.Clamps
end XdrText
