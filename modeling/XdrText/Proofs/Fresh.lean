import XdrText.Proofs.Preservation
import XdrText.Proofs.Resolution

/-!
# XdrText — fresh trees

An initial value is of its type if and only if every tag in it that is an enum has a symbol with an
arm (`Schema.initial_hasType_iff`): the cases of a union may be numbers, and where none of them is
the value of a symbol the first of them becomes the tag.

**Fresh trees** (`Schema.initial_written_iff`).  Where the definitions are grounded, each declared
type has an initial value, and it is written without a fault if and only if the unions from which it
is put together are armed.
-/

namespace XdrText

namespace Schema
variable {s : Schema} {ty inner : Ty} {v : Value}

/-! ### What an initial value is put together from -/

/-- The value of a type, with types entered by name unfolded to some depth. -/
def Fresh (s : Schema) (ty : Ty) (v : Value) : Prop :=
  ∃ n, s.initialTo n ty = .ok v

/-- The values of fields, with types entered by name unfolded to some depth. -/
def FreshFields (s : Schema) (fs : List Field) (vs : List (String × Value)) : Prop :=
  ∃ n, (fs.mapM fun f => (f.name, ·) <$> s.initialTo n f.ty) = .ok vs

theorem fresh_initial (h : s.initial ty = .ok v) : s.Fresh ty v :=
  ⟨s.depth, h⟩

/-- Below a type entered by name everything is fresh to a lesser depth. -/
theorem Fresh.exists_fill (h : s.Fresh ty v) : ∃ n, s.fill (s.initialTo n) ty = .ok v := by
  obtain ⟨n, hv⟩ := h
  cases n with
  | zero => cases hv
  | succ n => exact ⟨n, hv⟩

theorem Fresh.of_optional (h : s.Fresh (.optional inner) v) : v = .optional inner none := by
  obtain ⟨n, hv⟩ := h.exists_fill
  cases hv
  rfl

/-- The elements of a fresh array are all the same. -/
theorem Fresh.of_array {n : Nat} (h : s.Fresh (.array inner (n + 1)) v) :
    ∃ w, v = .array (List.replicate (n + 1) w) ∧ s.Fresh inner w := by
  obtain ⟨m, hv⟩ := h.exists_fill
  obtain ⟨w, hw, rfl⟩ := Except.map_eq_ok.mp hv
  exact ⟨w, rfl, m + 1, hw⟩

theorem Fresh.of_struct {name : String} {d : StructDecl} (hd : s.struct? name = some d)
    (h : s.Fresh (.struct name) v) : ∃ vs, v = .struct name vs ∧ s.FreshFields d.fields vs := by
  obtain ⟨n, hv⟩ := h.exists_fill
  simp only [fill, hd] at hv
  obtain ⟨vs, hvs, rfl⟩ := Except.map_eq_ok.mp hv
  exact ⟨vs, rfl, n, hvs⟩

theorem FreshFields.of_cons {f : Field} {fs : List Field} {vs : List (String × Value)}
    (h : s.FreshFields (f :: fs) vs) :
    ∃ v ws, vs = (f.name, v) :: ws ∧ s.Fresh f.ty v ∧ s.FreshFields fs ws := by
  obtain ⟨n, h⟩ := h
  rw [List.mapM_cons] at h
  obtain ⟨_, hf, h⟩ := Except.bind_eq_ok.mp h
  obtain ⟨ws, hws, h⟩ := Except.bind_eq_ok.mp h
  obtain ⟨v, hv, rfl⟩ := Except.map_eq_ok.mp hf
  cases h
  exact ⟨v, ws, rfl, ⟨n, hv⟩, n, hws⟩

/-- A fresh union has its initial tag and what the arm of that tag begins with. -/
theorem Fresh.of_union {name : String} {u : ResolvedUnion} (hu : s.union? name = some u)
    (h : s.Fresh (.union name) v) :
    ∃ held, v = .union name (.leaf (u.tagType.leaf (s.initialTag u))) held ∧
      ∀ f, u.arm? (s.initialTag u) = some (some f) → ∃ w, held = some w ∧ s.Fresh f.ty w := by
  obtain ⟨n, hv⟩ := h.exists_fill
  simp only [fill, hu, fillUnion, name_of_union? hu] at hv
  split at hv
  next f hf =>
    obtain ⟨w, hw, rfl⟩ := Except.map_eq_ok.mp hv
    refine ⟨some w, rfl, fun g hg => ?_⟩
    cases hf.symm.trans hg
    exact ⟨w, rfl, n, hw⟩
  next void =>
    cases hv
    exact ⟨none, rfl, fun f hf => absurd hf (void f)⟩

/-! ### Which initial values are of their type -/

/-- Each field of a fresh struct is fresh, and of its type if the struct is. -/
theorem FreshFields.exists_hasType {f : Field} :
    ∀ {fs : List Field} {vs : List (String × Value)}, s.FreshFields fs vs →
      s.TypedFields s.Knows fs vs → f ∈ fs → ∃ w, s.Fresh f.ty w ∧ s.HasType f.ty w
  | g :: fs, _, fresh, typed, hf => by
      obtain ⟨v, vs, rfl, first, rest⟩ := fresh.of_cons
      cases typed with
      | cons typed others =>
          rcases List.mem_cons.mp hf with rfl | hf
          · exact ⟨v, first, typed⟩
          · exact exists_hasType rest others hf

/-- Where an initial value is of its type, so are those from which it is put together. -/
theorem Begins.exists_hasType (h : s.Begins ty inner) :
    ∀ {v : Value}, s.Fresh ty v → s.HasType ty v → ∃ w, s.Fresh inner w ∧ s.HasType inner w := by
  induction h with
  | here => exact fun fresh typed => ⟨_, fresh, typed⟩
  | elem hn _ ih =>
      intro v fresh typed
      obtain ⟨n, rfl⟩ := Nat.exists_eq_add_one_of_ne_zero hn
      obtain ⟨w, rfl, inside⟩ := fresh.of_array
      obtain ⟨_, same, -, typed⟩ := Typed.exists_array typed
      cases same
      exact ih inside (typed w (by simp))
  | field hd hf _ ih =>
      intro v fresh typed
      obtain ⟨fields, rfl, inside⟩ := fresh.of_struct hd
      obtain ⟨_, same, typed⟩ := Typed.exists_struct hd typed
      cases same
      obtain ⟨w, filled, typed⟩ := inside.exists_hasType typed hf
      exact ih filled typed
  | arm hu hf _ ih =>
      intro v fresh typed
      obtain ⟨held, rfl, arm⟩ := fresh.of_union hu
      obtain ⟨w, rfl, inside⟩ := arm _ hf
      obtain ⟨-, u', d, hu', tag, -, harm⟩ := typed.of_union
      cases hu.symm.trans hu'
      obtain rfl := TagType.leaf_injective (Value.leaf.inj tag)
      exact ih inside (harm.of_value hf rfl)

/-- The tag of a fresh union of its type has a symbol, which has an arm. -/
theorem Fresh.armed (sound : s.Sound) {union : String} {u : ResolvedUnion}
    (hu : s.union? union = some u) (fresh : s.Fresh (.union union) v)
    (typed : s.HasType (.union union) v) : s.Armed u := by
  intro name e ht he
  obtain ⟨held, rfl, -⟩ := fresh.of_union hu
  obtain ⟨-, u', d, hu', tag, known, -⟩ := typed.of_union
  cases hu.symm.trans hu'
  obtain rfl := TagType.leaf_injective (Value.leaf.inj tag)
  rw [ht] at known
  obtain ⟨e', he', symbol⟩ := known
  cases he.symm.trans he'
  rw [EnumDecl.symbol?, Option.isSome_map] at symbol
  obtain ⟨x, hx, value⟩ := List.find?_isSome.mp symbol
  have tag : x.2 = s.initialTag u := by simpa using value
  exact ⟨x, hx, tag ▸ sound.hasArm_initialTag u (mem_of_union? hu)⟩

/-- The initial value of a type is of it if and only if the unions from which it is put together are
armed. -/
theorem initial_hasType_iff (sound : s.Sound) (symbols : ∀ e ∈ s.enums, e.symbols ≠ [])
    (hv : s.initial ty = .ok v) :
    s.HasType ty v ↔
      ∀ union u, s.Begins ty (.union union) → s.union? union = some u → s.Armed u := by
  constructor
  · intro typed union u hb hu
    obtain ⟨w, fresh, typed⟩ := hb.exists_hasType (fresh_initial hv) typed
    exact fresh.armed sound hu typed
  · intro armed
    exact initialTo_typed sound (knows_head symbols) (fun union u hb hu =>
      knows_initialTag sound (mem_of_union? hu) (armed union u hb hu)) hv

/-! ### Fresh trees -/

/-- A declared type has an initial value where no type holds itself, and the initial value is
written without a fault if and only if each union in it whose tag is an enum has an arm for one of
its symbols. -/
theorem initial_written_iff {d : Definitions} (resolved : d.resolve = .ok s)
    (symbols : ∀ e ∈ d.enums, e.symbols ≠ []) {name : String} {ty : Ty} (declared : d.Declares ty)
    (sources : s.BareSources name ty) (a : Annotator) :
    (d.Grounded → ∃ v, s.initial ty = .ok v) ∧
      ∀ v, s.initial ty = .ok v → ((s.write a name v).faults = [] ↔
        ∀ union u, s.Begins ty (.union union) → s.union? union = some u → s.Armed u) := by
  have sound := Definitions.resolve_sound resolved
  refine ⟨fun grounded => Definitions.exists_initial resolved grounded declared, fun v hv => ?_⟩
  rw [write_faults_iff (initial_shaped sound hv) sources]
  exact initial_hasType_iff sound ((Definitions.resolve_ok resolved).1 ▸ symbols) hv

/-! ### Paint -/

/-- A paint has a color, for which there is one case. -/
def paintDefinitions (label : CaseLabel) : Definitions where
  enums := [⟨"Color", [("RED", 0)]⟩]
  structs := []
  unions := [⟨"Paint", "color", .enum "Color", [⟨[label], none⟩], none, false⟩]

/-- The case of a paint is a number. -/
def paint (v : Int32) : Schema :=
  ⟨(paintDefinitions (.value v)).enums, [],
    (paintDefinitions (.value v)).unions.map fun u => ⟨u, [(v, 0)]⟩⟩

/-- The arm of a paint holds nothing, so a paint is grounded. -/
theorem paint_grounded (label : CaseLabel) : (paintDefinitions label).Grounded := by
  refine Definitions.grounded_of_rank sizeOf fun ty inner holds => ?_
  cases holds with
  | elem elem n => simp only [Ty.array.sizeOf_spec]; omega
  | field ht => cases ht
  | arm hu hf =>
      obtain rfl := List.mem_singleton.mp hu
      cases hf

theorem paint_bareSources (v : Int32) (name : String) :
    (paint v).BareSources name (.union "Paint") :=
  bareSources_of_opaques (by decide) (fun f hf => by cases hf)

/-- The color of a fresh paint is the one for which there is a case. -/
theorem initial_written_iff_paint :
    (paintDefinitions (.value 0)).resolve = .ok (paint 0) ∧
      (∀ e ∈ (paintDefinitions (.value 0)).enums, e.symbols ≠ []) ∧
      (paintDefinitions (.value 0)).Declares (.union "Paint") ∧
      (paint 0).BareSources "" (.union "Paint") ∧ (paintDefinitions (.value 0)).Grounded ∧
      (∃ v, (paint 0).initial (.union "Paint") = .ok v) ∧
      (paint 0).initial (.union "Paint") = .ok (.union "Paint" (.leaf (.enum "Color" 0)) none) ∧
      ((paint 0).write .plain "" (.union "Paint" (.leaf (.enum "Color" 0)) none)).faults = [] := by
  have resolved : (paintDefinitions (.value 0)).resolve = .ok (paint 0) := rfl
  have symbols : ∀ e ∈ (paintDefinitions (.value 0)).enums, e.symbols ≠ [] := by decide
  have declared : (paintDefinitions (.value 0)).Declares (.union "Paint") :=
    ⟨_, List.mem_cons_self, rfl⟩
  obtain ⟨exist, written⟩ :=
    initial_written_iff resolved symbols declared (paint_bareSources 0 "") .plain
  refine ⟨resolved, symbols, declared, paint_bareSources 0 "", paint_grounded _,
    exist (paint_grounded _), rfl, (written _ rfl).mpr fun union u _ hu => ?_⟩
  obtain rfl := List.mem_singleton.mp (mem_of_union? hu)
  rintro _ e ⟨⟩ he
  cases he
  exact ⟨_, List.mem_cons_self, rfl⟩

/-- Where the only case is the number of no color, a fresh paint has that number for its color. -/
theorem initial_paint :
    (paintDefinitions (.value 5)).resolve = .ok (paint 5) ∧
      (∀ e ∈ (paintDefinitions (.value 5)).enums, e.symbols ≠ []) ∧
      (paintDefinitions (.value 5)).Declares (.union "Paint") ∧
      (paint 5).BareSources "" (.union "Paint") ∧ (paintDefinitions (.value 5)).Grounded ∧
      (paint 5).initial (.union "Paint") = .ok (.union "Paint" (.leaf (.enum "Color" 5)) none) ∧
      ((paint 5).write .plain "" (.union "Paint" (.leaf (.enum "Color" 5)) none)).faults =
        [⟨"color", .invalidSymbol 5 "Color"⟩] :=
  ⟨rfl, by decide, ⟨_, List.mem_cons_self, rfl⟩, paint_bareSources 5 "", paint_grounded _, rfl, rfl⟩

end Schema

end XdrText
