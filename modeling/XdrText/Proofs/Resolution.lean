import Mathlib.Data.List.Nodup
import Mathlib.Data.List.Perm.Subperm
import Mathlib.Logic.Relation
import XdrText.Proofs.Initial

/-!
# XdrText — which definitions resolve, and to what

Definitions are *sound* when types have distinct names, structs have fields of distinct names, every
type named at any depth is declared, and each union has cases that stand for different values, or an
arm for all other values (`Definitions.Sound`).  They are *grounded* when every cycle of types
passes through an optional or a sequence (`Definitions.Grounded`).

**Resolution** (`Definitions.resolve_exact`).  Definitions resolve if and only if they are sound.
In the schema, the arm of each value is the one that lists it, by number or by symbol, and else the
one for all other values.  Where the definitions are grounded, there is an initial value of every
type whose names are declared, and of every union with each tag.

The bound on the depth of initial values is enough because the types that are entered by name, one
inside the other, are all different (`Definitions.initialTo_ne_endless`).
-/

namespace XdrText

/-- What always leads to a lower rank does not lead back. -/
theorem Ty.not_transGen_of_rank {leads : Ty → Ty → Prop} (rank : Ty → Nat)
    (h : ∀ ty inner, leads ty inner → rank inner < rank ty) (ty : Ty) :
    ¬ Relation.TransGen leads ty ty := by
  have lower : ∀ ty inner, Relation.TransGen leads ty inner → rank inner < rank ty := by
    intro ty inner path
    induction path with
    | single last => exact h _ _ last
    | tail _ last ih => exact Nat.lt_trans (h _ _ last) ih
  exact fun cycle => Nat.lt_irrefl _ (lower ty ty cycle)

/-- The types of a schema that are entered by name. -/
def Schema.named (s : Schema) : List Ty :=
  s.structs.map (fun t => .struct t.name) ++ s.unions.map fun u => .union u.name

/-- The cases of all arms of a union. -/
def UnionDecl.cases (u : UnionDecl) : List CaseLabel :=
  u.arms.flatMap Arm.cases

namespace Definitions

/-! ### Sound definitions -/

/-- The types that a type names, at any depth, are declared. -/
def Declares (d : Definitions) : Ty → Prop
  | .enum name => ∃ e ∈ d.enums, e.name = name
  | .struct name => ∃ t ∈ d.structs, t.name = name
  | .union name => ∃ u ∈ d.unions, u.name = name
  | .optional ty | .array ty _ | .seq ty _ => d.Declares ty
  | _ => True

/-- The enum of a tag. -/
def tagEnum? (d : Definitions) : TagType → Option EnumDecl
  | .int => none
  | .enum name => d.enums.find? fun e => e.name = name

/-- The value that a case of a union stands for. -/
def caseValue? (d : Definitions) (u : UnionDecl) (c : CaseLabel) : Option Int32 :=
  c.value? (d.tagEnum? u.tagType)

/-- The fields of a struct have different names and types that are declared. -/
structure SoundStruct (d : Definitions) (t : StructDecl) : Prop where
  fields_nodup : (t.fields.map Field.name).Nodup
  declares : ∀ f ∈ t.fields, d.Declares f.ty

/-- The types of a union are declared, and its cases stand for different values, of which there are
some unless it has an arm for all others. -/
structure SoundUnion (d : Definitions) (u : UnionDecl) : Prop where
  declares : ∀ f ∈ u.fields, d.Declares f.ty
  declares_tag : ∀ name, u.tagType = .enum name → ∃ e ∈ d.enums, e.name = name
  /-- A number stands for itself, a symbol has to be one of the tag's enum. -/
  cases_stand : ∀ c ∈ u.cases, (d.caseValue? u c).isSome
  cases_nodup : (u.cases.map (d.caseValue? u)).Nodup
  armed : u.cases ≠ [] ∨ u.otherwise.isSome

/-- Types have different names, and each struct and each union is sound. -/
structure Sound (d : Definitions) : Prop where
  types_nodup : d.typeNames.Nodup
  structs : ∀ t ∈ d.structs, d.SoundStruct t
  unions : ∀ u ∈ d.unions, d.SoundUnion u

variable {d : Definitions}

/-! ### Checks -/

/-- Nothing is found to be repeated where the names differ from each other and from those seen
before. -/
theorem firstRepeated?_eq_none :
    ∀ {seen xs : List String}, firstRepeated? seen xs = none ↔ xs.Nodup ∧ ∀ x ∈ xs, x ∉ seen
  | _, [] => by simp [firstRepeated?]
  | seen, x :: xs => by
      simp only [firstRepeated?]
      split
      next known => exact iff_of_false nofun fun h => h.2 x List.mem_cons_self known
      next fresh =>
        simp only [firstRepeated?_eq_none, List.mem_cons, not_or, List.nodup_cons, forall_eq_or_imp]
        constructor
        · exact fun ⟨nodup, unseen⟩ =>
            ⟨⟨fun hx => (unseen x hx).1 rfl, nodup⟩, fresh, fun y hy => (unseen y hy).2⟩
        · exact fun ⟨⟨other, nodup⟩, _, unseen⟩ =>
            ⟨nodup, fun y hy => ⟨fun same => other (same ▸ hy), unseen y hy⟩⟩

/-- A type passes its check if what it names is declared. -/
theorem checkTy_eq_ok : ∀ ty : Ty, d.checkTy ty = .ok () ↔ d.Declares ty
  | .enum _ | .struct _ | .union _ => by simp [checkTy, Declares]
  | .optional ty | .array ty _ | .seq ty _ => checkTy_eq_ok ty
  | .bool | .int | .uint | .hyper | .uhyper | .amount | .time | .account | .signer | .asset
  | .string _ | .bytes _ | .fixed _ | .code _ | .signature => iff_of_true rfl trivial

theorem checkArm_eq_ok {f : Option Field} :
    d.checkArm f = .ok () ↔ ∀ g ∈ f.toList, d.Declares g.ty := by
  cases f with
  | none => exact iff_of_true rfl (List.forall_mem_nil _)
  | some g => simpa [checkArm] using checkTy_eq_ok g.ty

/-- The enum of a tag is found if the tag is a number or names one that is declared. -/
theorem tagEnum_eq_ok {t : TagType} {symbols : Option EnumDecl} :
    d.tagEnum t = .ok symbols ↔
      symbols = d.tagEnum? t ∧ ∀ name, t = .enum name → ∃ e ∈ d.enums, e.name = name := by
  cases t with
  | int => simp [tagEnum, tagEnum?, eq_comm]
  | «enum» name =>
      have declared : (∃ e ∈ d.enums, e.name = name) ↔
          (d.enums.find? fun e => e.name = name).isSome := by simp
      simp only [tagEnum, tagEnum?, TagType.enum.injEq, forall_eq', declared]
      cases d.enums.find? fun e => e.name = name <;> simp [eq_comm]

/-- The values that cases stand for, if all of them do. -/
theorem map_value? {symbols : Option EnumDecl} {cs : List CaseLabel}
    (h : ∀ c ∈ cs, (c.value? symbols).isSome) :
    cs.map (·.value? symbols) = (cs.filterMap (·.value? symbols)).map some := by
  induction cs with
  | nil => rfl
  | cons c cs ih =>
      obtain ⟨hc, hcs⟩ := List.forall_mem_cons.mp h
      obtain ⟨v, hv⟩ := Option.isSome_iff_exists.mp hc
      rw [List.map_cons, List.filterMap_cons_some hv, List.map_cons, hv, ih hcs]

theorem checkFields_iff {t : StructDecl} :
    d.checkFields t.name [] t.fields = .ok () ↔ d.SoundStruct t := by
  simp only [checkFields_eq_ok, checkTy_eq_ok, List.not_mem_nil, not_false_eq_true, implies_true,
    true_and]
  exact ⟨fun ⟨nodup, declares⟩ => ⟨nodup, declares⟩, fun h => ⟨h.fields_nodup, h.declares⟩⟩

theorem checkArms_iff {u : UnionDecl} :
    ((∀ a ∈ u.arms, d.checkArm a.field = .ok ()) ∧ d.checkArm u.otherwise.join = .ok ()) ↔
      ∀ f ∈ u.fields, d.Declares f.ty := by
  simp only [checkArm_eq_ok, UnionDecl.fields, List.forall_mem_append, List.mem_filterMap,
    Option.mem_toList]
  refine and_congr_left' ⟨?_, ?_⟩
  · rintro h f ⟨a, ha, hf⟩
    exact h a ha f hf
  · exact fun h a ha f hf => h f ⟨a, ha, hf⟩

section
variable {u : UnionDecl} (stand : ∀ c ∈ u.cases, (d.caseValue? u c).isSome)
include stand

/-- Where all cases stand for values, these are the ones that resolution lists. -/
theorem map_caseValue? : u.cases.map (d.caseValue? u) =
    ((armCases (d.tagEnum? u.tagType) 0 u.arms).map Prod.fst).map some := by
  rw [map_fst_armCases]
  exact map_value? stand

theorem nodup_caseValue?_iff : (u.cases.map (d.caseValue? u)).Nodup ↔
    ((armCases (d.tagEnum? u.tagType) 0 u.arms).map Prod.fst).Nodup := by
  rw [map_caseValue? stand, List.nodup_map_iff fun _ _ => Option.some.inj]

theorem armCases_eq_nil_iff : armCases (d.tagEnum? u.tagType) 0 u.arms = [] ↔ u.cases = [] := by
  rw [← List.map_eq_nil_iff (f := Prod.fst), ← List.map_eq_nil_iff (f := some),
    ← map_caseValue? stand, List.map_eq_nil_iff]

end

/-- A union resolves if and only if it is sound. -/
theorem exists_resolveUnion_iff {u : UnionDecl} :
    (∃ r, d.resolveUnion u = .ok r) ↔ d.SoundUnion u := by
  simp only [resolveUnion_eq_ok, tagEnum_eq_ok]
  constructor
  · rintro ⟨_, _, ⟨rfl, tag⟩, checked, ho, nodup, armed, rfl⟩
    have stand : ∀ c ∈ u.cases, (d.caseValue? u c).isSome :=
      List.forall_mem_flatMap.mpr fun a ha => (checked a ha).2
    rw [armCases_eq_nil_iff stand, not_and_or] at armed
    exact ⟨checkArms_iff.mp ⟨fun a ha => (checked a ha).1, ho⟩, tag, stand,
      (nodup_caseValue?_iff stand).mpr nodup, armed.imp id Option.isSome_iff_ne_none.mpr⟩
  · intro h
    obtain ⟨fields, otherwise⟩ := checkArms_iff.mpr h.declares
    have stand := h.cases_stand
    refine ⟨_, _, ⟨rfl, h.declares_tag⟩, fun a ha => ⟨fields a ha, ?_⟩, otherwise,
      (nodup_caseValue?_iff stand).mp h.cases_nodup, ?_, rfl⟩
    · exact List.forall_mem_flatMap.mp stand a ha
    · rw [armCases_eq_nil_iff stand, not_and_or]
      exact h.armed.imp id Option.isSome_iff_ne_none.mp

/-- Definitions resolve if and only if they are sound. -/
theorem exists_resolve_iff : (∃ s, d.resolve = .ok s) ↔ d.Sound := by
  have fresh : firstRepeated? [] d.typeNames = none ↔ d.typeNames.Nodup := by
    simp [firstRepeated?_eq_none]
  have structs : (d.structs.forM fun t => d.checkFields t.name [] t.fields) = .ok () ↔
      ∀ t ∈ d.structs, d.SoundStruct t := by
    simp only [forM_eq_ok, checkFields_iff]
  have unions : (∃ rs, d.unions.mapM d.resolveUnion = .ok rs) ↔ ∀ u ∈ d.unions, d.SoundUnion u := by
    simp only [exists_mapM_eq_ok, exists_resolveUnion_iff]
  rw [resolve]
  split
  next repeated =>
    refine iff_of_false (by rintro ⟨_, ⟨⟩⟩) fun h => ?_
    rw [fresh.mpr h.types_nodup] at repeated
    cases repeated
  next none_repeated =>
    constructor
    · rintro ⟨s, h⟩
      obtain ⟨⟨⟩, hs, h⟩ := Except.bind_eq_ok.mp h
      obtain ⟨rs, hu, -⟩ := Except.bind_eq_ok.mp h
      exact ⟨fresh.mp none_repeated, structs.mp hs, unions.mp ⟨rs, hu⟩⟩
    · intro h
      obtain ⟨rs, hu⟩ := unions.mpr h.unions
      exact ⟨_, Except.bind_eq_ok.mpr ⟨(), structs.mpr h.structs,
        Except.bind_eq_ok.mpr ⟨rs, hu, rfl⟩⟩⟩

/-! ### Arms -/

variable {s : Schema} {u : UnionDecl} {r : ResolvedUnion}

theorem lookup_of_mem {v : Int32} {i : Nat} :
    ∀ {l : List (Int32 × Nat)}, (l.map Prod.fst).Nodup → (v, i) ∈ l → l.lookup v = some i
  | (w, j) :: l, nodup, h => by
      rw [List.map_cons, List.nodup_cons] at nodup
      rcases List.mem_cons.mp h with same | hl
      · cases same
        simp
      · have other : v ≠ w := by
          rintro rfl
          exact nodup.1 (List.mem_map.mpr ⟨_, hl, rfl⟩)
        rw [List.lookup_cons, beq_eq_false_iff_ne.mpr other]
        exact lookup_of_mem nodup.2 hl

/-- A value has the arm that lists it, and else the arm for all other values. -/
theorem arm?_of_resolveUnion (h : d.resolveUnion u = .ok r) (v : Int32) :
    (∀ a ∈ u.arms, (∃ c ∈ a.cases, d.caseValue? u c = some v) → r.arm? v = some a.field) ∧
      ((∀ a ∈ u.arms, ∀ c ∈ a.cases, d.caseValue? u c ≠ some v) → r.arm? v = u.otherwise) := by
  obtain ⟨_, ht, -, -, nodup, -, rfl⟩ := resolveUnion_eq_ok.mp h
  obtain ⟨rfl, -⟩ := tagEnum_eq_ok.mp ht
  constructor
  · intro a ha listed
    obtain ⟨k, hk⟩ := List.mem_iff_getElem?.mp ha
    have found := lookup_of_mem nodup (mem_armCases.mpr ⟨k, a, hk, rfl, listed⟩)
    simp [ResolvedUnion.arm?, found, hk]
  · intro unlisted
    have missing : (armCases (d.tagEnum? u.tagType) 0 u.arms).lookup v = none := by
      rw [List.lookup_eq_none_iff]
      intro x hx
      obtain ⟨k, a, hk, -, c, hc, hv⟩ := mem_armCases.mp hx
      rw [bne_iff_ne]
      rintro rfl
      exact unlisted a (List.mem_of_getElem? hk) c hc hv
    simp [ResolvedUnion.arm?, missing]

/-- A union is found by its name. -/
theorem exists_union? (h : d.resolve = .ok s) (hu : u ∈ d.unions) :
    ∃ r, s.union? u.name = some r ∧ d.resolveUnion u = .ok r := by
  obtain ⟨-, -, -, resolved, declared⟩ := resolve_ok h
  have names : (d.unions.map UnionDecl.name).Nodup :=
    (List.nodup_append.mp (exists_resolve_iff.mp ⟨s, h⟩).types_nodup).2.1
  obtain ⟨r, hr, hres⟩ := resolved u hu
  have named : (s.union? u.name).isSome := by
    refine List.find?_isSome.mpr ⟨r, hr, ?_⟩
    rw [(resolveUnion_ok hres).1]
    simp
  obtain ⟨r', hr'⟩ := Option.isSome_iff_exists.mp named
  -- it is the only one of that name
  obtain ⟨u', hu', hres'⟩ := declared r' (Schema.mem_of_union? hr')
  have same : u'.name = u.name := by
    rw [← (resolveUnion_ok hres').1]
    exact Schema.name_of_union? hr'
  obtain rfl := List.inj_on_of_nodup_map names hu' hu same
  exact ⟨r', hr', hres'⟩

/-! ### Initial values -/

/-- A type is directly inside another, and neither in an optional nor in a sequence. -/
inductive Holds (d : Definitions) : Ty → Ty → Prop where
  | elem (elem : Ty) (n : Nat) : d.Holds (.array elem n) elem
  | field {t : StructDecl} {f : Field} (ht : t ∈ d.structs) (hf : f ∈ t.fields) :
      d.Holds (.struct t.name) f.ty
  | arm {u : UnionDecl} {f : Field} (hu : u ∈ d.unions) (hf : f ∈ u.fields) :
      d.Holds (.union u.name) f.ty

/-- Every cycle of types passes through an optional or a sequence. -/
def Grounded (d : Definitions) : Prop :=
  ∀ ty, ¬ Relation.TransGen d.Holds ty ty

/-- What is entered from a type is directly inside a type that has a name. -/
theorem exists_named (h : d.resolve = .ok s) :
    ∀ {ty : Ty} {f : Field}, f ∈ s.entered ty →
      ∃ e ∈ s.named, Relation.ReflTransGen d.Holds ty e ∧ d.Holds e f.ty
  | .array elem n, f, hf => by
      obtain ⟨e, he, path, last⟩ := exists_named h (show f ∈ s.entered elem from hf)
      exact ⟨e, he, path.head (.elem elem n), last⟩
  | .struct name, f, hf => by
      cases ht : s.struct? name with
      | none => simp [Schema.entered, ht] at hf
      | some t =>
          rw [Schema.entered_struct ht] at hf
          have mem := Schema.mem_of_struct? ht
          obtain rfl := Schema.name_of_struct? ht
          exact ⟨_, List.mem_append_left _ (List.mem_map_of_mem mem), .refl,
            .field ((resolve_ok h).2.1 ▸ mem) hf⟩
  | .union name, f, hf => by
      cases hr : s.union? name with
      | none => simp [Schema.entered, hr] at hf
      | some r =>
          rw [Schema.entered_union hr] at hf
          have mem := Schema.mem_of_union? hr
          obtain ⟨u, hu, hres⟩ := (resolve_ok h).2.2.2.2 r mem
          obtain rfl := (resolveUnion_ok hres).1
          obtain rfl := Schema.name_of_union? hr
          exact ⟨_, List.mem_append_right _ (List.mem_map_of_mem mem), .refl, .arm hu hf⟩

/-- The types `around` that were entered by name are all different, so the depth is not used up. -/
theorem initialTo_ne_endless (h : d.resolve = .ok s) (grounded : d.Grounded) :
    ∀ {n : Nat} {ty : Ty} (around : List Ty), around.Nodup → around ⊆ s.named →
      (∀ e ∈ around, Relation.TransGen d.Holds e ty) → s.named.length < around.length + n →
        s.initialTo n ty ≠ .error .endlessType
  | 0, _, around, distinct, named, _, deep => by
      have short := (List.subperm_of_subset distinct named).length_le
      omega
  | n + 1, ty, around, distinct, named, inside, deep => by
      refine Schema.fill_ne_endless ty fun f hf => ?_
      obtain ⟨e, he, path, last⟩ := exists_named h hf
      have fresh : e ∉ around := fun hm => grounded e ((inside e hm).trans_left path)
      refine initialTo_ne_endless h grounded (e :: around) (List.nodup_cons.mpr ⟨fresh, distinct⟩)
        (List.cons_subset.mpr ⟨he, named⟩)
        (List.forall_mem_cons.mpr ⟨.single last, fun x hx => ?_⟩) ?_
      · exact ((inside x hx).trans_left path).tail last
      · rw [List.length_cons]
        omega

/-- Where definitions are grounded, no type is endless. -/
theorem not_endless (h : d.resolve = .ok s) (grounded : d.Grounded) (ty : Ty) : ¬ s.Endless ty := by
  refine initialTo_ne_endless h grounded [] List.nodup_nil (List.nil_subset _)
    (List.forall_mem_nil _) ?_
  simp [Schema.depth, Schema.named]

/-- Where definitions are grounded, each type that they declare has an initial value. -/
theorem exists_initial (h : d.resolve = .ok s) (grounded : d.Grounded) {ty : Ty}
    (declared : d.Declares ty) : ∃ v, s.initial ty = .ok v := by
  have supplied := supplies_of_checkTy h ((checkTy_eq_ok ty).mpr declared)
  obtain ⟨v, hv, -⟩ := Schema.exists_initial (resolve_sound h) supplied (not_endless h grounded ty)
  exact ⟨v, hv⟩

/-- Where definitions are grounded, each union can be made with any tag. -/
theorem exists_unionWith (h : d.resolve = .ok s) (grounded : d.Grounded) (hu : u ∈ d.unions)
    (v : Int32) : ∃ w, s.unionWith u.name v = .ok w := by
  obtain ⟨r, hr, hres⟩ := exists_union? h hu
  simp only [Schema.unionWith, hr, Schema.fillUnion]
  split
  next f hf =>
    have mem : f ∈ u.fields := (resolveUnion_ok hres).1 ▸ Schema.mem_fields_of_arm? hf
    have declared := ((exists_resolve_iff.mp ⟨s, h⟩).unions u hu).declares f mem
    obtain ⟨w, hw⟩ := exists_initial h grounded declared
    exact ⟨_, Except.map_eq_ok.mpr ⟨w, hw, rfl⟩⟩
  next => exact ⟨_, rfl⟩

/-- Definitions resolve if and only if they are sound.  Then the arm of each value is the one that
was declared for it, and where no type holds itself all types and unions have a value to begin
with. -/
theorem resolve_exact (d : Definitions) :
    ((∃ s, d.resolve = .ok s) ↔ d.Sound) ∧
    ∀ s, d.resolve = .ok s →
      (∀ u ∈ d.unions, ∃ r, s.union? u.name = some r ∧ r.toUnionDecl = u ∧ ∀ v : Int32,
        (∀ a ∈ u.arms, (∃ c ∈ a.cases, d.caseValue? u c = some v) → r.arm? v = some a.field) ∧
        ((∀ a ∈ u.arms, ∀ c ∈ a.cases, d.caseValue? u c ≠ some v) → r.arm? v = u.otherwise)) ∧
      (d.Grounded →
        (∀ ty, d.Declares ty → ∃ v, s.initial ty = .ok v) ∧
        ∀ u ∈ d.unions, ∀ v, ∃ w, s.unionWith u.name v = .ok w) := by
  refine ⟨exists_resolve_iff, fun s h => ⟨fun u hu => ?_, fun grounded => ⟨fun ty declared => ?_,
    fun u hu v => ?_⟩⟩⟩
  · obtain ⟨r, hr, hres⟩ := exists_union? h hu
    exact ⟨r, hr, (resolveUnion_ok hres).1, arm?_of_resolveUnion hres⟩
  · exact exists_initial h grounded declared
  · exact exists_unionWith h grounded hu v

/-! ### Figures -/

/-- Definitions are grounded if what is directly inside a type is always of a lower rank. -/
theorem grounded_of_rank (rank : Ty → Nat)
    (h : ∀ ty inner, d.Holds ty inner → rank inner < rank ty) : d.Grounded :=
  Ty.not_transGen_of_rank rank h

/-- A figure is a dot, or a box that can have a figure in it; `cases` are those of a box. -/
def figureDefinitions (cases : List CaseLabel) : Definitions where
  enums := [⟨"Shape", [("DOT", 0), ("BOX", 1)]⟩]
  structs := [⟨"Box", [⟨"corners", .array .int 2⟩, ⟨"content", .optional (.union "Figure")⟩]⟩]
  unions :=
    [⟨"Figure", "shape", .enum "Shape", [⟨cases, some ⟨"box", .struct "Box"⟩⟩], some none, false⟩]

def figures : Schema :=
  ⟨(figureDefinitions []).enums, (figureDefinitions []).structs,
    (figureDefinitions [.symbol "BOX"]).unions.map fun u => ⟨u, [(1, 0)]⟩⟩

/-- What is directly inside a type is of a lower rank. -/
def figureRank : Ty → Nat
  | .array elem _ => figureRank elem + 1
  | .struct _ => 2
  | .union _ => 3
  | _ => 0

/-- A box holds a figure only as an optional, so figures are grounded. -/
theorem figures_grounded (cases : List CaseLabel) : (figureDefinitions cases).Grounded := by
  refine grounded_of_rank figureRank fun ty inner holds => ?_
  cases holds with
  | elem => exact Nat.lt_succ_self _
  | field ht hf =>
      obtain rfl := List.mem_singleton.mp ht
      rcases List.mem_pair.mp hf with rfl | rfl <;> decide
  | arm hu hf =>
      obtain rfl := List.mem_singleton.mp hu
      obtain rfl := List.mem_singleton.mp hf
      exact Nat.lt_succ_self 2

/-- A box has its arm, and there is a new one. -/
theorem resolve_exact_figures :
    (figureDefinitions [.symbol "BOX"]).resolve = .ok figures ∧
      (figureDefinitions [.symbol "BOX"]).Sound ∧ (figureDefinitions [.symbol "BOX"]).Grounded ∧
      (∃ r, figures.union? "Figure" = some r ∧
        r.arm? 1 = some (some ⟨"box", .struct "Box"⟩) ∧ r.arm? 2 = some none) ∧
      (∃ v, figures.initial (.struct "Box") = .ok v) ∧ ∃ w,
        figures.unionWith "Figure" 1 = .ok w := by
  have resolved : (figureDefinitions [.symbol "BOX"]).resolve = .ok figures := rfl
  obtain ⟨sound, schema⟩ := resolve_exact (figureDefinitions [.symbol "BOX"])
  obtain ⟨arms, initial⟩ := schema figures resolved
  obtain ⟨values, unions⟩ := initial (figures_grounded _)
  refine ⟨resolved, sound.mp ⟨_, resolved⟩, figures_grounded _, ?_,
    values (.struct "Box") ⟨_, List.mem_cons_self, rfl⟩, unions _ List.mem_cons_self 1⟩
  obtain ⟨r, hr, -, harm⟩ := arms _ List.mem_cons_self
  refine ⟨r, hr, (harm 1).1 _ List.mem_cons_self ⟨_, List.mem_cons_self, rfl⟩, (harm 2).2 ?_⟩
  decide

/-- A number and a symbol with that value are not two cases. -/
example : (figureDefinitions [.symbol "BOX", .value 1]).resolve =
    .error (.duplicateCase "Figure" 1) := rfl

end Definitions

end XdrText
