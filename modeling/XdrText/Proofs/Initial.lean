import XdrText.Proofs.Sound
import XdrText.Proofs.Typing

/-!
# XdrText — initial values are of their type

The initial value of a type is shaped like it, and of it where every enum has a symbol and every tag
that is an enum has a symbol with an arm (`Schema.initial_shaped`, `Schema.initial_hasType`).  Where
a sound schema supplies the types that an initial value enters, there is one unless a type contains
itself (`Schema.endless_of_initial`).  A tree is *founded* when what it holds could have been there
from the beginning (`Value.Founded`).
-/

namespace XdrText

namespace Schema
variable {s : Schema} {known : String → Int32 → Prop} {inside : Ty → Except SchemaFault Value}

/-! ### What a value begins with -/

/-- The initial value of a type is put together from that of another type, or it is the same. -/
inductive Begins (s : Schema) : Ty → Ty → Prop where
  | here {ty : Ty} : Begins s ty ty
  | elem {elem ty : Ty} {n : Nat} (hn : n ≠ 0) (h : Begins s elem ty) : Begins s (.array elem n) ty
  | field {name : String} {ty : Ty} {d : StructDecl} {f : Field} (hd : s.struct? name = some d)
      (hf : f ∈ d.fields) (h : Begins s f.ty ty) : Begins s (.struct name) ty
  | arm {name : String} {ty : Ty} {u : ResolvedUnion} {f : Field} (hu : s.union? name = some u)
      (hf : u.arm? (s.initialTag u) = some (some f)) (h : Begins s f.ty ty) :
      Begins s (.union name) ty

/-- The unions from which the initial value of a type is put together have tags among those
`known`. -/
def BeginsWithin (s : Schema) (known : String → Int32 → Prop) (ty : Ty) : Prop :=
  ∀ name u, s.Begins ty (.union name) → s.union? name = some u →
    (u.tagType.leaf (s.initialTag u)).Within known

namespace BeginsWithin

/-- Where an array has elements, they begin within what the array does. -/
theorem elem {elem : Ty} {n : Nat} (h : s.BeginsWithin known (.array elem (n + 1))) :
    s.BeginsWithin known elem :=
  fun name u hb => h name u (.elem (Nat.succ_ne_zero n) hb)

/-- So do the fields of a struct. -/
theorem field {struct : String} (h : s.BeginsWithin known (.struct struct)) {d : StructDecl}
    (hd : s.struct? struct = some d) {f : Field} (hf : f ∈ d.fields) : s.BeginsWithin known f.ty :=
  fun name u hb => h name u (.field hd hf hb)

/-- So does what a union holds to begin with. -/
theorem arm {union : String} (h : s.BeginsWithin known (.union union)) {u : ResolvedUnion}
    (hu : s.union? union = some u) {f : Field} (hf : u.arm? (s.initialTag u) = some (some f)) :
    s.BeginsWithin known f.ty :=
  fun name w hb => h name w (.arm hu hf hb)

end BeginsWithin

/-! ### Shape -/

/-- Fields that are filled one by one are of the types of the fields. -/
theorem typedFields_of_mapM :
    ∀ {fs : List Field} {vs : List (String × Value)},
      (∀ f ∈ fs, ∀ v, inside f.ty = .ok v → s.Typed known f.ty v) →
      (fs.mapM fun f => (f.name, ·) <$> inside f.ty) = .ok vs → s.TypedFields known fs vs
  | [], _, _, h => by cases h; exact .nil
  | f :: fs, _, hin, h => by
      rw [List.mapM_cons] at h
      obtain ⟨_, hf, h⟩ := Except.bind_eq_ok.mp h
      obtain ⟨vs, hfs, h⟩ := Except.bind_eq_ok.mp h
      obtain ⟨v, hv, rfl⟩ := Except.map_eq_ok.mp hf
      cases h
      exact .cons (hin f List.mem_cons_self v hv)
        (typedFields_of_mapM (fun g hg => hin g (List.mem_cons_of_mem _ hg)) hfs)

/-- A union filled for a tag that has an arm. -/
theorem fillUnion_typed {name : String} {u : ResolvedUnion} (hu : s.union? name = some u)
    {d : Int32}
    (hin : ∀ f, u.arm? d = some (some f) → ∀ v, inside f.ty = .ok v → s.Typed known f.ty v)
    (hd : (u.tagType.leaf d).Within known) (harm : u.hasArm d) {v : Value}
    (h : fillUnion inside u d = .ok v) : s.Typed known (.union name) v := by
  simp only [fillUnion, name_of_union? hu] at h
  split at h
  next f ha =>
    obtain ⟨w, hw, rfl⟩ := Except.map_eq_ok.mp h
    refine .union hu hd ?_
    rw [ha]
    exact .value (hin f ha w hw)
  next hn =>
    cases h
    refine .union hu hd ?_
    obtain ⟨arm, ha⟩ := Option.isSome_iff_exists.mp harm
    cases arm with
    | none => rw [ha]; exact .void
    | some f => exact absurd ha (hn f)

/-- A value is of its type when the values that fill it are of theirs. -/
theorem fill_typed (sound : s.Sound)
    (hsym : ∀ name e, s.enum? name = some e → known name ((e.symbols.head?.map Prod.snd).getD 0))
    (hin : ∀ ty v, s.BeginsWithin known ty → inside ty = .ok v → s.Typed known ty v) :
    ∀ {ty : Ty} {v : Value}, s.BeginsWithin known ty → s.fill inside ty = .ok v → s.Typed known ty v
  | .bool, _, _, h | .int, _, _, h | .uint, _, _, h | .hyper, _, _, h | .uhyper, _, _, h
  | .amount, _, _, h | .time, _, _, h | .account, _, _, h | .signer, _, _, h | .asset, _, _, h => by
      cases h; exact .leaf rfl trivial
  | .string _, _, _, h | .bytes _, _, _, h => by cases h; exact .leaf rfl (Nat.zero_le _)
  | .fixed n, _, _, h | .code n, _, _, h => by
      cases h; exact .leaf (by simp [Leaf.ty]) trivial
  | .signature, _, _, h => by cases h; exact .signature (Nat.zero_le _)
  | .optional _, _, _, h => by cases h; exact .absent
  | .seq _ _, _, _, h => by cases h; exact .seq (Nat.zero_le _) (by simp)
  | .array elem 0, _, _, h => by cases h; exact .array rfl (by simp)
  | .array elem (n + 1), _, tags, h => by
      obtain ⟨v, hv, rfl⟩ := Except.map_eq_ok.mp h
      have typed : s.Typed known elem v := fill_typed sound hsym hin tags.elem hv
      exact .array List.length_replicate fun w hw => List.eq_of_mem_replicate hw ▸ typed
  | .enum name, _, _, h => by
      simp only [fill] at h
      split at h
      next => cases h
      next e he => cases h; exact .leaf rfl (hsym name e he)
  | .struct name, _, tags, h => by
      simp only [fill] at h
      split at h
      next => cases h
      next d hd =>
        obtain ⟨fields, hf, rfl⟩ := Except.map_eq_ok.mp h
        exact .struct hd (typedFields_of_mapM (fun f hf v hv => hin _ v (tags.field hd hf) hv) hf)
  | .union name, _, tags, h => by
      simp only [fill] at h
      split at h
      next => cases h
      next u hu =>
        refine fillUnion_typed hu (fun f hf v hv => hin _ v (tags.arm hu hf) hv)
          (tags name u .here hu) (sound.hasArm_initialTag u (mem_of_union? hu)) h

/-- An initial value is of its type, in which enums begin with their first symbol, to whatever depth
types are entered. -/
theorem initialTo_typed (sound : s.Sound)
    (hsym : ∀ name e, s.enum? name = some e → known name ((e.symbols.head?.map Prod.snd).getD 0)) :
    ∀ {n : Nat} {ty : Ty} {v : Value}, s.BeginsWithin known ty → s.initialTo n ty = .ok v →
      s.Typed known ty v
  | 0, _, _, _, h => by cases h
  | n + 1, _, _, tags, h =>
      fill_typed sound hsym
        (fun _ _ inner hin => initialTo_typed sound hsym (n := n) inner hin) tags h

/-- The initial value of a type is shaped like it. -/
theorem initial_shaped (sound : s.Sound) {ty : Ty} {v : Value} (h : s.initial ty = .ok v) :
    s.Shaped ty v :=
  initialTo_typed sound (fun _ _ _ => trivial)
    (fun _ u _ _ => by cases u.tagType <;> exact trivial) h

/-- A tag that is an enum has a symbol with an arm. -/
def Armed (s : Schema) (u : ResolvedUnion) : Prop :=
  ∀ name e, u.tagType = .enum name → s.enum? name = some e → ∃ x ∈ e.symbols, u.hasArm x.2

/-- Every enum has a symbol, and every tag that is an enum has a symbol with an arm. -/
structure Symbolic (s : Schema) : Prop where
  symbols_ne_nil : ∀ e ∈ s.enums, e.symbols ≠ []
  exists_armed : ∀ u ∈ s.unions, ∀ name e, u.tagType = .enum name → s.enum? name = some e →
    ∃ x ∈ e.symbols, u.hasArm x.2

/-- The values of the symbols of an enum are known. -/
theorem knows_of_mem {name : String} {e : EnumDecl} (he : s.enum? name = some e) {v : Int32}
    (hv : v ∈ e.symbols.map Prod.snd) : s.Knows name v := by
  obtain ⟨x, hx, rfl⟩ := List.mem_map.mp hv
  refine ⟨e, he, ?_⟩
  rw [EnumDecl.symbol?, Option.isSome_map]
  exact List.find?_isSome.mpr ⟨x, hx, by simp⟩

/-- The initial tag of a union that is an enum is the value of a symbol, if one of them has an
arm. -/
theorem knows_initialTag (sound : s.Sound) {u : ResolvedUnion} (hu : u ∈ s.unions)
    (armed : s.Armed u) : (u.tagType.leaf (s.initialTag u)).Within s.Knows := by
  cases ht : u.tagType with
  | int => exact trivial
  | «enum» name =>
      obtain ⟨e, he⟩ := Option.isSome_iff_exists.mp (sound.isSome_tagEnum u hu name ht)
      obtain ⟨x, hx, harm⟩ := armed name e ht he
      have hm : x.2 ∈ s.armedSymbols u :=
        mem_armedSymbols.mpr ⟨⟨name, e, ht, he, List.mem_map_of_mem hx⟩, harm⟩
      obtain ⟨v, hv⟩ := Option.isSome_iff_exists.mp (List.isSome_min?_of_mem hm)
      obtain ⟨⟨name', e', ht', he', hmem⟩, -⟩ := mem_armedSymbols.mp (List.min?_mem hv)
      obtain rfl : name = name' := by simpa [ht] using ht'
      simp only [initialTag, hv]
      exact knows_of_mem he' hmem

/-- The first symbol of an enum has a value of the enum. -/
theorem knows_head (symbols : ∀ e ∈ s.enums, e.symbols ≠ []) (name : String) (e : EnumDecl)
    (he : s.enum? name = some e) : s.Knows name ((e.symbols.head?.map Prod.snd).getD 0) := by
  refine knows_of_mem he ?_
  obtain ⟨x, xs, hx⟩ := List.exists_cons_of_ne_nil (symbols e (List.mem_of_find?_eq_some he))
  simp [hx]

/-- The initial value of a type is of the type, where each enum and each tag has a symbol to begin
with. -/
theorem initial_hasType (sound : s.Sound) (symbolic : s.Symbolic) {ty : Ty} {v : Value}
    (h : s.initial ty = .ok v) : s.HasType ty v :=
  initialTo_typed sound (knows_head symbolic.symbols_ne_nil)
    (fun _ u _ hu => knows_initialTag sound (mem_of_union? hu)
      (symbolic.exists_armed u (mem_of_union? hu))) h

/-! ### Existence -/

/-- Only a type without an end can be without an initial value, as all that it enters is
declared. -/
theorem fill_error (sound : s.Sound)
    (hin : ∀ ty f, s.Supplies ty → inside ty = .error f → f = .endlessType) :
    ∀ {ty : Ty} {f : SchemaFault}, s.Supplies ty → s.fill inside ty = .error f → f = .endlessType
  | .bool, _, _, h | .int, _, _, h | .uint, _, _, h | .hyper, _, _, h | .uhyper, _, _, h
  | .amount, _, _, h | .time, _, _, h | .account, _, _, h | .signer, _, _, h | .asset, _, _, h
  | .string _, _, _, h | .bytes _, _, _, h | .fixed _, _, _, h | .code _, _, _, h
  | .signature, _, _, h | .optional _, _, _, h | .seq _ _, _, _, h | .array _ 0, _, _, h => by
      cases h
  | .array elem (n + 1), _, hs, h =>
      fill_error sound hin (hs.resolve_left (Nat.succ_ne_zero n)) (Except.map_eq_error.mp h)
  | .enum name, _, hs, h => by
      obtain ⟨e, he⟩ := Option.isSome_iff_exists.mp hs
      simp only [fill, he] at h
      cases h
  | .struct name, f, hs, h => by
      obtain ⟨d, hd⟩ := Option.isSome_iff_exists.mp hs
      simp only [fill, hd] at h
      obtain ⟨x, hx, hf⟩ := mapM_error (Except.map_eq_error.mp h)
      exact hin x.ty f (sound.supplies_field d (mem_of_struct? hd) x hx) (Except.map_eq_error.mp hf)
  | .union name, f, hs, h => by
      obtain ⟨u, hu⟩ := Option.isSome_iff_exists.mp hs
      simp only [fill, hu, fillUnion] at h
      split at h
      next x hx =>
        exact hin x.ty f (sound.supplies_arm u (mem_of_union? hu) _ x hx) (Except.map_eq_error.mp h)
      next => cases h

/-- The only reason why a supplied type has no initial value is that it contains itself. -/
theorem endless_of_initial (sound : s.Sound) {ty : Ty} (hs : s.Supplies ty) {f : SchemaFault}
    (h : s.initial ty = .error f) : f = .endlessType := by
  have : ∀ n ty f, s.Supplies ty → s.initialTo n ty = .error f → f = .endlessType := by
    intro n
    induction n with
    | zero => intro ty f _ h; cases h; rfl
    | succ n ih => intro ty f hs h; exact fill_error sound ih hs h
  exact this _ _ _ hs h

/-- The initial value of a type would contain another one of the same type. -/
def Endless (s : Schema) (ty : Ty) : Prop :=
  s.initial ty = .error .endlessType

/-- A supplied type that is not endless has an initial value, which is shaped like it. -/
theorem exists_initial (sound : s.Sound) {ty : Ty} (hs : s.Supplies ty) (ends : ¬ s.Endless ty) :
    ∃ v, s.initial ty = .ok v ∧ s.Shaped ty v := by
  cases h : s.initial ty with
  | ok v => exact ⟨v, rfl, initial_shaped sound h⟩
  | error f =>
      obtain rfl := endless_of_initial sound hs h
      exact absurd h ends

/-- The fields that an initial value of a type can enter, through arrays. -/
def entered (s : Schema) : Ty → List Field
  | .array elem _ => s.entered elem
  | .struct name => ((s.struct? name).map StructDecl.fields).getD []
  | .union name => ((s.union? name).map fun u => u.fields).getD []
  | _ => []

theorem entered_struct {name : String} {d : StructDecl} (hd : s.struct? name = some d) :
    s.entered (.struct name) = d.fields := by
  simp [entered, hd]

theorem entered_union {name : String} {u : ResolvedUnion} (hu : s.union? name = some u) :
    s.entered (.union name) = u.fields := by
  simp [entered, hu]

/-- Whatever type is entered, it is entered for a field of the schema. -/
theorem entered_subset : ∀ ty : Ty, s.entered ty ⊆ s.fields
  | .array elem _ => entered_subset elem
  | .struct name => by
      cases hd : s.struct? name with
      | none => simp [entered, hd]
      | some d => exact entered_struct hd ▸ fun f hf => mem_fields_of_struct? hd hf
  | .union name => by
      cases hu : s.union? name with
      | none => simp [entered, hu]
      | some u =>
          exact entered_union hu ▸ fun f hf =>
            List.mem_append_right _ (List.mem_flatMap_of_mem (mem_of_union? hu) hf)
  | .bool | .int | .uint | .hyper | .uhyper | .amount | .time | .account | .signer | .asset
  | .string _ | .bytes _ | .fixed _ | .code _ | .signature | .optional _ | .seq _ _
  | .enum _ => nofun

/-- Filling goes on without an end only if it does for a type that is entered. -/
theorem fill_ne_endless :
    ∀ ty : Ty, (∀ f ∈ s.entered ty, inside f.ty ≠ .error .endlessType) →
      s.fill inside ty ≠ .error .endlessType
  | .bool, _ | .int, _ | .uint, _ | .hyper, _ | .uhyper, _ | .amount, _ | .time, _ | .account, _
  | .signer, _ | .asset, _ | .string _, _ | .bytes _, _ | .fixed _, _ | .code _, _ | .signature, _
  | .optional _, _ | .seq _ _, _ | .array _ 0, _ => nofun
  | .array elem (n + 1), h => fun he => fill_ne_endless elem h (Except.map_eq_error.mp he)
  | .enum name, _ => by
      simp only [fill]
      split <;> nofun
  | .struct name, h => by
      simp only [fill]
      split
      next => nofun
      next d hd =>
        intro he
        obtain ⟨f, hf, he⟩ := mapM_error (Except.map_eq_error.mp he)
        exact h f (entered_struct hd ▸ hf) (Except.map_eq_error.mp he)
  | .union name, h => by
      simp only [fill]
      split
      next => nofun
      next u hu =>
        simp only [fillUnion]
        split
        next f hf =>
          exact fun he => h f (entered_union hu ▸ mem_fields_of_arm? hf) (Except.map_eq_error.mp he)
        next => nofun

/-- Only the types of fields are entered by name. -/
theorem not_endless_of_fields
    (h : ∀ f ∈ s.fields, (s.initialTo (s.structs.length + s.unions.length) f.ty).isOk) (ty : Ty) :
    ¬ s.Endless ty := by
  refine fill_ne_endless ty fun f hf he => ?_
  have ok := h f (entered_subset ty hf)
  rw [he] at ok
  cases ok

/-- The type of what a union holds under a tag. -/
def armType? (s : Schema) (union : String) (tag : Value) : Option Ty := do
  let u ← s.union? union
  let v ← tag.discriminant?
  let arm ← u.arm? v
  arm.map Field.ty

/-- The arm for a tag tells the type of what is held. -/
theorem armType?_eq {union : String} {u : ResolvedUnion} {v : Int32} {f : Field}
    (hu : s.union? union = some u) (hf : u.arm? v = some (some f)) :
    s.armType? union (.leaf (u.tagType.leaf v)) = some f.ty := by
  simp [armType?, hu, hf]

/-- A type that has a value is supplied. -/
theorem HasType.supplies : ∀ {ty : Ty} {v : Value}, s.HasType ty v → s.Supplies ty
  | _, _, .leaf (l := l) hl h => by
      subst hl
      cases l with
      | «enum» name v =>
          obtain ⟨e, he, -⟩ := h
          simp [Leaf.ty, Supplies, he]
      | _ => exact trivial
  | _, _, .signature _ | _, _, .absent | _, _, .present _ | _, _, .seq .. => trivial
  | .array _ _, .array [], .array hn _ => .inl hn.symm
  | .array _ _, .array (v :: _), .array _ h => .inr (HasType.supplies (h v List.mem_cons_self))
  | _, _, .struct hd _ => Option.isSome_iff_exists.mpr ⟨_, hd⟩
  | _, _, .union hu _ _ => Option.isSome_iff_exists.mpr ⟨_, hu⟩

end Schema

/-! ### Founded trees -/

namespace Value
variable {s : Schema}

mutual

/-- No type is endless of which a node is held in an optional, a sequence or the arm of a union. -/
def Founded (s : Schema) : Value → Prop
  | .leaf _ | .signature _ | .optional _ none | .union _ _ none => True
  | .optional inner (some v) => ¬ s.Endless inner ∧ v.Founded s
  | .array items => FoundedItems s items
  | .seq elem _ items => (items ≠ [] → ¬ s.Endless elem) ∧ FoundedItems s items
  | .struct _ fields => FoundedFields s fields
  | .union ty tag (some v) =>
      (∀ inner, s.armType? ty tag = some inner → ¬ s.Endless inner) ∧ v.Founded s

def FoundedItems (s : Schema) : List Value → Prop
  | [] => True
  | v :: vs => v.Founded s ∧ FoundedItems s vs

def FoundedFields (s : Schema) : List (String × Value) → Prop
  | [] => True
  | (_, v) :: fs => v.Founded s ∧ FoundedFields s fs

end

mutual

/-- Where no type goes on without an end, every value is founded. -/
theorem founded (ends : ∀ ty, ¬ s.Endless ty) : ∀ v : Value, v.Founded s
  | .leaf _ | .signature _ | .optional _ none | .union _ _ none => trivial
  | .optional inner (some v) => ⟨ends inner, founded ends v⟩
  | .array items => foundedItems ends items
  | .seq elem _ items => ⟨fun _ => ends elem, foundedItems ends items⟩
  | .struct _ fields => foundedFields ends fields
  | .union _ _ (some v) => ⟨fun inner _ => ends inner, founded ends v⟩

theorem foundedItems (ends : ∀ ty, ¬ s.Endless ty) : ∀ vs : List Value, FoundedItems s vs
  | [] => trivial
  | v :: vs => ⟨founded ends v, foundedItems ends vs⟩

theorem foundedFields (ends : ∀ ty, ¬ s.Endless ty) :
    ∀ fs : List (String × Value), FoundedFields s fs
  | [] => trivial
  | (_, v) :: fs => ⟨founded ends v, foundedFields ends fs⟩

end

end Value

end XdrText
