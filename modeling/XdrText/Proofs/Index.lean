import XdrText.Proofs.Sound

/-!
# XdrText — arms by their index

A union finds the arm of a case by an index, which need not have an arm.  Selecting arms, and the
initial values that are put together from them, are given once more with nothing to come out where
it has none.  They come out as they are, as resolving gives each case the index of its arm
(`Definitions.resolve_indexed`, `Schema.initialChecked_eq`).
-/

namespace XdrText

/-! ### Arms -/

namespace ResolvedUnion

/-- The arm for a tag, by the index that the case has. -/
def armChecked (u : ResolvedUnion) (v : Int32) : Option (Option (Option Field)) :=
  match u.caseArms.lookup v with
  | some i => do return some (← u.arms[i]?).field
  | none => some u.otherwise

/-- The arm that the tag of a union selects. -/
def selectChecked (u : ResolvedUnion) (tag : Value) : Option (Option (Option Field)) :=
  match tag.discriminant? with
  | none => some none
  | some d => u.armChecked d

/-- Those of the tags that have an arm. -/
def armedChecked (u : ResolvedUnion) : List Int32 → Option (List Int32)
  | [] => some []
  | v :: vs => do
    let arm ← u.armChecked v
    let vs ← u.armedChecked vs
    return if arm.isSome then v :: vs else vs

/-- Each case has the index of an arm. -/
def Indexed (u : ResolvedUnion) : Prop :=
  ∀ c ∈ u.caseArms, c.2 < u.arms.length

variable {u : ResolvedUnion} (indexed : u.Indexed)
include indexed

/-- Where each case has the index of an arm, no index is out of range. -/
theorem armChecked_eq (v : Int32) : u.armChecked v = some (u.arm? v) := by
  rw [armChecked, arm?]
  cases hl : u.caseArms.lookup v with
  | none => rfl
  | some i =>
      obtain ⟨before, after, cases, -⟩ := List.lookup_eq_some_iff.mp hl
      have listed : (v, i) ∈ u.caseArms := by simp [cases]
      simp only [List.getElem?_eq_getElem (indexed _ listed)]
      rfl

theorem selectChecked_eq (tag : Value) :
    u.selectChecked tag = some (tag.discriminant?.bind u.arm?) := by
  rw [selectChecked]
  cases tag.discriminant? with
  | none => rfl
  | some d => exact armChecked_eq indexed d

theorem armedChecked_eq (vs : List Int32) : u.armedChecked vs = some (vs.filter u.hasArm) := by
  induction vs with
  | nil => rfl
  | cons v vs ih =>
      simp only [armedChecked, armChecked_eq indexed, ih, bind, Option.bind_some, List.filter_cons]
      rfl

end ResolvedUnion

namespace Schema

/-- Each case of each union has the index of an arm. -/
def Indexed (s : Schema) : Prop :=
  ∀ u ∈ s.unions, u.Indexed

/-- A union of an indexed schema is indexed. -/
theorem Indexed.of_union? {s : Schema} (h : s.Indexed) {name : String} {u : ResolvedUnion}
    (hu : s.union? name = some u) : u.Indexed :=
  h u (mem_of_union? hu)

end Schema

/-- Resolving gives each case the index of its arm. -/
theorem Definitions.resolve_indexed {d : Definitions} {s : Schema} (h : d.resolve = .ok s) :
    s.Indexed := by
  obtain ⟨-, -, -, -, unions⟩ := resolve_ok h
  intro r hr
  obtain ⟨u, -, hu⟩ := unions r hr
  exact (resolveUnion_ok hu).2.1

/-! ### Initial values -/

namespace Schema

/-- The tag of an initial union: the lowest with an arm, or else the lowest case. -/
def initialTagChecked (s : Schema) (u : ResolvedUnion) : Option Int32 := do
  let armed ← match u.tagType with
    | .int => some []
    | .enum name =>
      match s.enum? name with
      | none => some []
      | some e => u.armedChecked (e.symbols.map Prod.snd)
  return (armed.min? <|> (u.caseArms.map Prod.fst).min?).getD 0

section
variable (inside : Ty → Option (Except SchemaFault Value))

/-- The initial value of a union with a tag, and with an arm if the tag has a field. -/
def fillUnionChecked (u : ResolvedUnion) (v : Int32) : Option (Except SchemaFault Value) := do
  let tag := .leaf (u.tagType.leaf v)
  match ← u.armChecked v with
  | some (some field) => return (fun arm => .union u.name tag (some arm)) <$> (← inside field.ty)
  | _ => return .ok (.union u.name tag none)

/-- The initial values of fields, up to the first that has none. -/
def fillFieldsChecked : List Field → Option (Except SchemaFault (List (String × Value)))
  | [] => some (.ok [])
  | f :: fs => do
    match ← inside f.ty with
    | .error e => return .error e
    | .ok v => return (fun vs => (f.name, v) :: vs) <$> (← fillFieldsChecked fs)

/-- The initial value of a type, where `inside` gives those of the types that it enters by name. -/
def fillChecked (s : Schema) : Ty → Option (Except SchemaFault Value)
  | .array elem (n + 1) => do
    return (fun v => .array (List.replicate (n + 1) v)) <$> (← s.fillChecked elem)
  | .struct name =>
    match s.struct? name with
    | none => some (.error (.unknownStruct name))
    | some d => do return Value.struct name <$> (← fillFieldsChecked inside d.fields)
  | .union name =>
    match s.union? name with
    | none => some (.error (.unknownUnion name))
    | some u => do fillUnionChecked inside u (← s.initialTagChecked u)
  | ty => some (s.fill (fun _ => .error .endlessType) ty)

end

/-- The initial value of a type, with types entered by name unfolded `depth` times. -/
def initialToChecked (s : Schema) : (depth : Nat) → Ty → Option (Except SchemaFault Value)
  | 0, _ => some (.error .endlessType)
  | depth + 1, ty => s.fillChecked (s.initialToChecked depth) ty

/-- The initial value of a type, as the arms of unions come out. -/
def initialChecked (s : Schema) (ty : Ty) : Option (Except SchemaFault Value) :=
  s.initialToChecked s.depth ty

section
variable {s : Schema}

theorem initialTagChecked_eq {u : ResolvedUnion} (indexed : u.Indexed) :
    s.initialTagChecked u = some (s.initialTag u) := by
  rw [initialTagChecked, initialTag, armedSymbols]
  cases u.tagType with
  | int => rfl
  | «enum» name =>
      simp only
      cases s.enum? name with
      | none => rfl
      | some e =>
          simp only [ResolvedUnion.armedChecked_eq indexed]
          rfl

variable {inside : Ty → Except SchemaFault Value}
  {insideChecked : Ty → Option (Except SchemaFault Value)}
  (hin : ∀ ty, insideChecked ty = some (inside ty))
include hin

theorem fillUnionChecked_eq {u : ResolvedUnion} (indexed : u.Indexed) (v : Int32) :
    fillUnionChecked insideChecked u v = some (fillUnion inside u v) := by
  simp only [fillUnionChecked, ResolvedUnion.armChecked_eq indexed, fillUnion, hin, bind,
    Option.bind_some]
  cases u.arm? v with
  | none => rfl
  | some field => cases field <;> rfl

theorem fillFieldsChecked_eq (fs : List Field) : fillFieldsChecked insideChecked fs =
    some (fs.mapM fun f => (f.name, ·) <$> inside f.ty) := by
  induction fs with
  | nil => rfl
  | cons f fs ih =>
      simp only [fillFieldsChecked, hin, ih, List.mapM_cons, bind, Option.bind_some]
      cases inside f.ty with
      | error e => rfl
      | ok v => rfl

/-- A value is filled in without an index out of range. -/
theorem fillChecked_eq (indexed : s.Indexed) :
    ∀ ty, s.fillChecked insideChecked ty = some (s.fill inside ty)
  | .bool | .int | .uint | .hyper | .uhyper | .string _ | .amount | .time | .enum _ | .fixed _
  | .code _ | .bytes _ | .optional _ | .array _ 0 | .seq _ _ | .account | .signer | .signature
  | .asset => rfl
  | .array elem (n + 1) => by
      simp only [fillChecked, fillChecked_eq indexed elem]
      rfl
  | .struct name => by
      simp only [fillChecked, fill]
      cases s.struct? name with
      | none => rfl
      | some d =>
          simp only [fillFieldsChecked_eq hin]
          rfl
  | .union name => by
      simp only [fillChecked, fill]
      cases hu : s.union? name with
      | none => rfl
      | some u =>
          have there := indexed.of_union? hu
          simp only [initialTagChecked_eq there, fillUnionChecked_eq hin there, bind,
            Option.bind_some]

end

/-- Initial values are made without an index out of range. -/
theorem initialChecked_eq {s : Schema} (indexed : s.Indexed) (ty : Ty) :
    s.initialChecked ty = some (s.initial ty) := by
  have steps : ∀ depth ty, s.initialToChecked depth ty = some (s.initialTo depth ty) := by
    intro depth
    induction depth with
    | zero => exact fun _ => rfl
    | succ depth ih => exact fillChecked_eq ih indexed
  exact steps s.depth ty

end Schema

end XdrText
