import XdrText.Schema.Initial

/-!
# XdrText — values of a type

A value is *of a type* when it has the kinds, the names, the fixed lengths and the maxima that the
type prescribes, lengths stay within their maxima, enums have values of their tables, and the tag of
each union selects the arm that it holds (`Schema.HasType`).

A value is *shaped* like a type when all of this holds except that enums may have any value
(`Schema.Shaped`).  The initial value of a type is shaped like it even where an enum without symbols
leaves it nothing to begin with.

`Schema.BareSources` bounds the one place where a name decides how data is written: opaque data
under the name of a bare source key is a key.
-/

namespace XdrText
open Key

/-- The type that a leaf shows by itself. -/
def Leaf.ty : Leaf → Ty
  | .bool _ => .bool
  | .int _ => .int
  | .uint _ => .uint
  | .hyper _ => .hyper
  | .uhyper _ => .uhyper
  | .string _ max => .string max
  | .amount _ => .amount
  | .time _ => .time
  | .enum ty _ => .enum ty
  | .fixed data => .fixed data.length
  | .code data => .code data.length
  | .bytes _ max => .bytes max
  | .account _ => .account
  | .signer _ => .signer
  | .asset _ => .asset

/-- The length of a leaf is within its maximum, and the value of an enum is among those `known`. -/
def Leaf.Within (known : String → Int32 → Prop) : Leaf → Prop
  | .string data max | .bytes data max => data.length ≤ max.toNat
  | .enum ty v => known ty v
  | _ => True

theorem Leaf.Within.mono {known more : String → Int32 → Prop} (h : ∀ ty v, known ty v → more ty v) :
    ∀ {l : Leaf}, l.Within known → l.Within more
  | .string .., hl | .bytes .., hl => hl
  | .enum .., hl => h _ _ hl
  | .bool _, _ | .int _, _ | .uint _, _ | .hyper _, _ | .uhyper _, _ | .amount _, _ | .time _, _
  | .fixed _, _ | .code _, _ | .account _, _ | .signer _, _ | .asset _, _ => trivial

namespace TagType

/-- A leaf of the type of a tag is a tag. -/
theorem exists_leaf {t : TagType} {d : Int32} {l : Leaf} (h : l.ty = (t.leaf d).ty) :
    ∃ d', l = t.leaf d' := by
  cases t with
  | int =>
      cases l with
      | int d' => exact ⟨d', rfl⟩
      | _ => cases h
  | «enum» name =>
      cases l with
      | «enum» ty d' => cases h; exact ⟨d', rfl⟩
      | _ => cases h

/-- The leaf of a tag tells the value that it was made for. -/
@[simp] theorem discriminant?_leaf (t : TagType) (d : Int32) :
    (Value.leaf (t.leaf d)).discriminant? = some d := by
  cases t <;> rfl

/-- Leaves of a tag are told apart by their values. -/
theorem leaf_injective {t : TagType} {d e : Int32} (h : t.leaf d = t.leaf e) : d = e := by
  have same := congrArg (fun l => (Value.leaf l).discriminant?) h
  simpa using same

end TagType

namespace Schema
variable (s : Schema)

/-- The enum of that name has a symbol for the value. -/
def Knows (name : String) (v : Int32) : Prop :=
  ∃ e, s.enum? name = some e ∧ (e.symbol? v).isSome

section
variable (known : String → Int32 → Prop)

mutual

/-- A value is of a type as far as enums may have the values `known`. -/
inductive Typed : Ty → Value → Prop where
  | leaf {ty : Ty} {l : Leaf} (hl : l.ty = ty) (h : l.Within known) : Typed ty (.leaf l)
  | signature {g : Signature} (h : g.body.length ≤ Signature.maximum) :
      Typed .signature (.signature g)
  | absent {inner : Ty} : Typed (.optional inner) (.optional inner none)
  | present {inner : Ty} {v : Value} (h : Typed inner v) :
      Typed (.optional inner) (.optional inner (some v))
  | array {elem : Ty} {n : Nat} {items : List Value} (hn : items.length = n)
      (h : ∀ v ∈ items, Typed elem v) : Typed (.array elem n) (.array items)
  | seq {elem : Ty} {max : UInt32} {items : List Value} (hn : items.length ≤ max.toNat)
      (h : ∀ v ∈ items, Typed elem v) : Typed (.seq elem max) (.seq elem max items)
  | struct {name : String} {d : StructDecl} {fields : List (String × Value)}
      (hd : s.struct? name = some d) (h : TypedFields d.fields fields) :
      Typed (.struct name) (.struct name fields)
  | union {name : String} {u : ResolvedUnion} {d : Int32} {held : Option Value}
      (hu : s.union? name = some u) (ht : (u.tagType.leaf d).Within known)
      (h : TypedArm (u.arm? d) held) :
      Typed (.union name) (.union name (.leaf (u.tagType.leaf d)) held)

/-- The fields of a struct, in the order of their declaration. -/
inductive TypedFields : List Field → List (String × Value) → Prop where
  | nil : TypedFields [] []
  | cons {f : Field} {fs : List Field} {v : Value} {vs : List (String × Value)}
      (h : Typed f.ty v) (t : TypedFields fs vs) : TypedFields (f :: fs) ((f.name, v) :: vs)

/-- What a union holds is what the arm selected by its tag is for. -/
inductive TypedArm : Option (Option Field) → Option Value → Prop where
  | void : TypedArm (some none) none
  | value {f : Field} {v : Value} (h : Typed f.ty v) : TypedArm (some (some f)) (some v)

end

end

/-- A value is of a type. -/
def HasType : Ty → Value → Prop :=
  s.Typed s.Knows

/-- A value is of a type except that enums may have any value. -/
def Shaped : Ty → Value → Prop :=
  s.Typed fun _ _ => True

variable {s} {known more : String → Int32 → Prop}

mutual

/-- A value stays of its type when more values of enums count as known. -/
theorem Typed.mono (hk : ∀ ty v, known ty v → more ty v) :
    ∀ {ty : Ty} {v : Value}, s.Typed known ty v → s.Typed more ty v
  | _, _, .leaf hl h => .leaf hl (h.mono hk)
  | _, _, .signature h => .signature h
  | _, _, .absent => .absent
  | _, _, .present h => .present (h.mono hk)
  | _, _, .array hn h => .array hn fun v hv => (h v hv).mono hk
  | _, _, .seq hn h => .seq hn fun v hv => (h v hv).mono hk
  | _, _, .struct hd h => .struct hd (h.mono hk)
  | _, _, .union hu ht h => .union hu (ht.mono hk) (h.mono hk)

theorem TypedFields.mono (hk : ∀ ty v, known ty v → more ty v) :
    ∀ {fs : List Field} {vs : List (String × Value)}, s.TypedFields known fs vs →
      s.TypedFields more fs vs
  | _, _, .nil => .nil
  | _, _, .cons h t => .cons (h.mono hk) (t.mono hk)

theorem TypedArm.mono (hk : ∀ ty v, known ty v → more ty v) :
    ∀ {arm : Option (Option Field)} {held : Option Value}, s.TypedArm known arm held →
      s.TypedArm more arm held
  | _, _, .void => .void
  | _, _, .value h => .value (h.mono hk)

end

/-- What is of a type is shaped like it. -/
theorem HasType.shaped {ty : Ty} {v : Value} (h : s.HasType ty v) : s.Shaped ty v :=
  Typed.mono (fun _ _ _ => trivial) h

/-- What an optional holds is of the type inside. -/
theorem Typed.of_optional {inner ty : Ty} {held : Option Value}
    (h : s.Typed known ty (.optional inner held)) :
    ty = .optional inner ∧ ∀ v, held = some v → s.Typed known inner v := by
  cases h with
  | absent => exact ⟨rfl, nofun⟩
  | present h => exact ⟨rfl, by rintro _ ⟨⟩; exact h⟩

/-- The tag of a union is a leaf of the type of tags, and what is held is what the arm for it is
for. -/
theorem Typed.of_union {name : String} {ty : Ty} {tag : Value} {held : Option Value}
    (h : s.Typed known ty (.union name tag held)) :
    ty = .union name ∧ ∃ u d, s.union? name = some u ∧ tag = .leaf (u.tagType.leaf d) ∧
      (u.tagType.leaf d).Within known ∧ s.TypedArm known (u.arm? d) held := by
  cases h with
  | union hu ht h => exact ⟨rfl, _, _, hu, rfl, ht, h⟩

/-! The values of a type that is given -/

/-- What is shaped like a leaf is a leaf of the same type. -/
theorem Typed.exists_leaf {l : Leaf} {v : Value} (h : s.Typed known l.ty v) :
    ∃ l' : Leaf, v = .leaf l' ∧ l'.ty = l.ty := by
  cases l <;> cases h <;> exact ⟨_, rfl, by assumption⟩

theorem Typed.exists_signature {v : Value} (h : s.Typed known .signature v) :
    ∃ g, v = .signature g := by
  cases h with
  | @leaf _ l hl => cases l <;> cases hl
  | signature => exact ⟨_, rfl⟩

/-- What is of the type of an optional is an optional. -/
theorem Typed.exists_optional {inner : Ty} {v : Value} (h : s.Typed known (.optional inner) v) :
    ∃ held, v = .optional inner held ∧ ∀ w, held = some w → s.Typed known inner w := by
  cases h with
  | @leaf _ l hl => cases l <;> cases hl
  | absent => exact ⟨none, rfl, nofun⟩
  | present h => exact ⟨some _, rfl, by rintro _ ⟨⟩; exact h⟩

/-- What is of the type of an array has as many elements as the type says. -/
theorem Typed.exists_array {elem : Ty} {n : Nat} {v : Value}
    (h : s.Typed known (.array elem n) v) :
    ∃ items, v = .array items ∧ items.length = n ∧ ∀ w ∈ items, s.Typed known elem w := by
  cases h with
  | @leaf _ l hl => cases l <;> cases hl
  | array hn h => exact ⟨_, rfl, hn, h⟩

/-- What is of the type of a sequence has elements of the type inside. -/
theorem Typed.exists_seq {elem : Ty} {max : UInt32} {v : Value}
    (h : s.Typed known (.seq elem max) v) :
    ∃ items, v = .seq elem max items ∧ ∀ w ∈ items, s.Typed known elem w := by
  cases h with
  | @leaf _ l hl => cases l <;> cases hl
  | seq hn h => exact ⟨_, rfl, h⟩

/-- What is of the type of a struct has the declared fields. -/
theorem Typed.exists_struct {name : String} {d : StructDecl} {v : Value}
    (hd : s.struct? name = some d) (h : s.Typed known (.struct name) v) :
    ∃ fields, v = .struct name fields ∧ s.TypedFields known d.fields fields := by
  cases h with
  | @leaf _ l hl => cases l <;> cases hl
  | struct hd' h =>
      cases Option.some.inj (hd.symm.trans hd')
      exact ⟨_, rfl, h⟩

/-- What is of the type of a union has a tag and what the arm for the tag is for. -/
theorem Typed.exists_union {name : String} {u : ResolvedUnion} {v : Value}
    (hu : s.union? name = some u) (h : s.Typed known (.union name) v) :
    ∃ d held, v = .union name (.leaf (u.tagType.leaf d)) held ∧
      s.TypedArm known (u.arm? d) held := by
  cases h with
  | @leaf _ l hl => cases l <;> cases hl
  | union hu' _ h =>
      cases Option.some.inj (hu.symm.trans hu')
      exact ⟨_, _, rfl, h⟩

/-- A void arm holds nothing, and another holds a value of its type. -/
theorem TypedArm.void_or_value {arm : Option (Option Field)} {held : Option Value}
    (h : s.TypedArm known arm held) : arm = some none ∧ held = none ∨
      ∃ f v, arm = some (some f) ∧ held = some v ∧ s.Typed known f.ty v := by
  cases h with
  | void => exact .inl ⟨rfl, rfl⟩
  | value h => exact .inr ⟨_, _, rfl, rfl, h⟩

/-- Where the arm has a field, what is held is of the type of the field. -/
theorem TypedArm.of_value {arm : Option (Option Field)} {held : Option Value} {f : Field}
    {v : Value} (h : s.TypedArm known arm held) (ha : arm = some (some f)) (hv : held = some v) :
    s.Typed known f.ty v := by
  subst ha hv
  cases h with
  | value h => exact h

/-! ### Bare source keys -/

variable (s)

/-- A value of a type under a name can have a part of another type under another name. -/
inductive Reaches : String → Ty → String → Ty → Prop where
  | here {name : String} {ty : Ty} : Reaches name ty name ty
  | inner {name m : String} {ty u : Ty} (h : Reaches name ty m u) : Reaches name (.optional ty) m u
  | elem {name m : String} {ty u : Ty} {i n : Nat} (hi : i < n)
      (h : Reaches (Name.index name i) ty m u) : Reaches name (.array ty n) m u
  | item {name m : String} {ty u : Ty} {i : Nat} {max : UInt32} (hi : i < max.toNat)
      (h : Reaches (Name.index name i) ty m u) : Reaches name (.seq ty max) m u
  | field {name m ty : String} {u : Ty} {d : StructDecl} {f : Field} (hd : s.struct? ty = some d)
      (hf : f ∈ d.fields) (h : Reaches (Name.child name f.name) f.ty m u) :
      Reaches name (.struct ty) m u
  | arm {name m ty : String} {u : Ty} {d : ResolvedUnion} {v : Int32} {f : Field}
      (hd : s.union? ty = some d) (hf : d.arm? v = some (some f))
      (h : Reaches (d.armName name f) f.ty m u) : Reaches name (.union ty) m u

/-- Opaque data of fixed length under the name of a bare source key is 32 bytes long. -/
def BareSources (name : String) (ty : Ty) : Prop :=
  ∀ m n, s.Reaches name ty m (.fixed n) → (Name.sourceAlias? m).isSome → n = 32

variable {s}

namespace BareSources
variable {name : String} {ty : Ty}

/-- What an optional holds goes by the name of the optional. -/
theorem inner (h : s.BareSources name (.optional ty)) : s.BareSources name ty :=
  fun m n hr => h m n (.inner hr)

theorem elem {i n : Nat} (h : s.BareSources name (.array ty n)) (hi : i < n) :
    s.BareSources (Name.index name i) ty :=
  fun m k hr => h m k (.elem hi hr)

theorem item {i : Nat} {max : UInt32} (h : s.BareSources name (.seq ty max)) (hi : i < max.toNat) :
    s.BareSources (Name.index name i) ty :=
  fun m k hr => h m k (.item hi hr)

theorem field {d : StructDecl} {struct : String} (h : s.BareSources name (.struct struct))
    (hd : s.struct? struct = some d) {f : Field} (hf : f ∈ d.fields) :
    s.BareSources (Name.child name f.name) f.ty :=
  fun m n hr => h m n (.field hd hf hr)

theorem arm {u : ResolvedUnion} {union : String} (h : s.BareSources name (.union union))
    (hu : s.union? union = some u) {v : Int32} {f : Field} (hf : u.arm? v = some (some f)) :
    s.BareSources (u.armName name f) f.ty :=
  fun m n hr => h m n (.arm hu hf hr)

/-- Opaque data under the name of a bare source key has 32 bytes. -/
theorem length_fixed {data : Bytes} {short : String} (h : s.BareSources name (Leaf.fixed data).ty)
    (hs : Name.sourceAlias? name = some short) : data.length = 32 :=
  h name _ .here (by rw [hs]; rfl)

/-- The tag of a union is no opaque data. -/
theorem tag (u : ResolvedUnion) (v : Int32) : s.BareSources name (u.tagType.leaf v).ty := by
  intro m n hr
  cases ht : u.tagType <;> rw [ht] at hr <;> cases hr

end BareSources

end Schema

end XdrText
