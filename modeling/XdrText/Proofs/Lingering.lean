import Mathlib.Data.Set.Card
import Mathlib.Logic.Relation
import XdrText.Proofs.Fresh
import XdrText.Proofs.Name

/-!
# XdrText — types that linger at a name

A node lingers in another where it goes by the same name and is there, or can be inferred, without a
row of its own: what an optional holds, the initial arm of an inline union, and a field without a
name at the root (`Schema.Lingers`).

The optionals that a walk can come to are spelt out by the types of the schema and those that the
tree keeps (`Schema.spelt`, `Value.spelt`).  Where no type lingers in itself, those ahead of a type
at one name are fewer and fewer (`Schema.ahead_lt`).
-/

namespace XdrText

/-! ### Names that grow -/

namespace Name

/-- A child has a longer name, but for a field without a name at the root. -/
theorem child_longer {name field : String} (h : name ≠ "" ∨ field ≠ "") :
    name.length < (child name field).length := by
  by_cases hn : name = ""
  · rw [child, if_pos hn, hn, ← String.length_toList]
    have hf := h.resolve_left (not_not_intro hn)
    exact List.length_pos_iff.mpr fun nil => hf (String.toList_injective nil)
  · rw [child, if_neg hn]
    simp only [String.length_append]
    exact Nat.lt_add_right _ (Nat.lt_succ_self _)

/-- The name of a child is longer, if it is another one at all. -/
theorem child_eq_or_longer (name field : String) :
    child name field = name ∨ name.length < (child name field).length := by
  by_cases h : name ≠ "" ∨ field ≠ ""
  · exact .inr (child_longer h)
  · obtain ⟨rfl, rfl⟩ : name = "" ∧ field = "" := by simpa using h
    exact .inl rfl

/-- A child has another name, but for a field without a name at the root. -/
theorem child_ne {name field : String} (h : name ≠ "" ∨ field ≠ "") : child name field ≠ name :=
  fun same => Nat.lt_irrefl _ (same ▸ child_longer h)

/-- An element has a longer name. -/
theorem length_lt_index (name : String) (i : Nat) : name.length < (index name i).length := by
  have bracket : "[".length = 1 := rfl
  simp only [index, String.length_append]
  omega

/-- No name below another is shorter. -/
theorem Below.length_le {name n : String} (h : Below name n) : name.length ≤ n.length := by
  rcases h with rfl | rfl | ⟨c, rest, hn, -⟩
  · exact Nat.zero_le _
  · exact Nat.le_refl _
  · rw [← String.length_toList, ← String.length_toList, hn, List.length_append]
    exact Nat.le_add_right _ _

end Name

/-- An arm goes by a longer name, if not by that of its union. -/
theorem ResolvedUnion.armName_eq_or_longer (u : ResolvedUnion) (name : String) (f : Field) :
    u.armName name f = name ∨ name.length < (u.armName name f).length := by
  rw [armName]
  split
  · exact .inl rfl
  · exact Name.child_eq_or_longer name f.name

/-! ### Optionals that are spelt out -/

/-- The optionals that a type spells out. -/
def Ty.spelt : Ty → List Ty
  | .optional inner => .optional inner :: inner.spelt
  | .array elem _ | .seq elem _ => elem.spelt
  | _ => []

/-- The optionals that a type spells out are those that are counted in it. -/
theorem Ty.length_spelt : ∀ ty : Ty, ty.spelt.length = ty.optionals
  | .optional inner => congrArg (· + 1) inner.length_spelt
  | .array elem _ | .seq elem _ => elem.length_spelt
  | .bool | .int | .uint | .hyper | .uhyper | .amount | .time | .account | .signer | .asset
  | .string _ | .bytes _ | .fixed _ | .code _ | .signature | .enum _ | .struct _ | .union _ => rfl

/-- The optionals around a type, and one more around a union. -/
def Ty.wraps : Ty → Nat
  | .optional inner => inner.wraps + 1
  | .union _ => 1
  | _ => 0

/-- The optionals that the types of a schema spell out. -/
def Schema.spelt (s : Schema) : List Ty :=
  s.fields.flatMap fun f => f.ty.spelt

theorem Schema.length_spelt (s : Schema) : s.spelt.length = s.optionals := by
  rw [spelt, optionals]
  induction s.fields with
  | nil => rfl
  | cons f fs ih =>
      simp only [List.flatMap_cons, List.length_append, List.foldr_cons, ih, f.ty.length_spelt]

namespace Value

mutual

/-- The optionals in a tree and in the types that its nodes keep. -/
def spelt : Value → List Ty
  | .leaf _ | .signature _ => []
  | .optional inner none => (Ty.optional inner).spelt
  | .optional inner (some v) => (Ty.optional inner).spelt ++ v.spelt
  | .array items => itemsSpelt items
  | .seq elem _ items => elem.spelt ++ itemsSpelt items
  | .struct _ fields => fieldsSpelt fields
  | .union _ tag none => tag.spelt
  | .union _ tag (some v) => tag.spelt ++ v.spelt

/-- The optionals in elements. -/
def itemsSpelt : List Value → List Ty
  | [] => []
  | v :: vs => v.spelt ++ itemsSpelt vs

/-- The optionals in fields. -/
def fieldsSpelt : List (String × Value) → List Ty
  | [] => []
  | (_, v) :: fs => v.spelt ++ fieldsSpelt fs

end

mutual

theorem length_spelt : ∀ v : Value, v.spelt.length = v.optionals
  | .leaf _ | .signature _ => by simp [spelt, optionals]
  | .optional inner none => by simp [spelt, optionals, Ty.length_spelt, Ty.optionals]
  | .optional inner (some v) => by
      simp [spelt, optionals, Ty.length_spelt, Ty.optionals, length_spelt v]
  | .array items => by simp [spelt, optionals, length_itemsSpelt items]
  | .seq elem _ items => by simp [spelt, optionals, Ty.length_spelt, length_itemsSpelt items]
  | .struct _ fields => by simp [spelt, optionals, length_fieldsSpelt fields]
  | .union _ tag none => by simp [spelt, optionals, length_spelt tag]
  | .union _ tag (some v) => by simp [spelt, optionals, length_spelt tag, length_spelt v]

theorem length_itemsSpelt : ∀ vs : List Value, (itemsSpelt vs).length = itemOptionals vs
  | [] => by simp [itemsSpelt, itemOptionals]
  | v :: vs => by simp [itemsSpelt, itemOptionals, length_spelt v, length_itemsSpelt vs]

theorem length_fieldsSpelt :
    ∀ fs : List (String × Value), (fieldsSpelt fs).length = fieldOptionals fs
  | [] => by simp [fieldsSpelt, fieldOptionals]
  | (_, v) :: fs => by simp [fieldsSpelt, fieldOptionals, length_spelt v, length_fieldsSpelt fs]

end

section
variable {pool : List Ty} {inner : Ty} {held : Option Value}

/-- A pool with all the optionals of an optional has itself, those of its type and those of what it
holds. -/
theorem spelt_optional_subset (h : (Value.optional inner held).spelt ⊆ pool) :
    .optional inner ∈ pool ∧ inner.spelt ⊆ pool ∧ ∀ v, held = some v → v.spelt ⊆ pool := by
  cases held with
  | none =>
      simp only [spelt, Ty.spelt, List.cons_subset] at h
      exact ⟨h.1, h.2, nofun⟩
  | some v =>
      simp only [spelt, Ty.spelt, List.append_subset, List.cons_subset] at h
      obtain ⟨⟨mem, inside⟩, value⟩ := h
      exact ⟨mem, inside, fun w hw => Option.some.inj hw ▸ value⟩

/-- A pool with all the optionals of a union has those of what it holds. -/
theorem spelt_union_subset {ty : String} {tag : Value}
    (h : (Value.union ty tag held).spelt ⊆ pool) :
    ∀ v, held = some v → v.spelt ⊆ pool := by
  rintro v rfl
  simp only [spelt, List.append_subset] at h
  exact h.2

end

end Value

namespace Schema
variable {s : Schema} {known : String → Int32 → Prop} {pool : List Ty}

theorem spelt_field {f : Field} (hf : f ∈ s.fields) : f.ty.spelt ⊆ s.spelt :=
  fun _ h => List.mem_flatMap_of_mem hf h

mutual

/-- The optionals in a value of a type are spelt out by the type or by the schema. -/
theorem Typed.spelt_subset (hs : s.spelt ⊆ pool) :
    ∀ {ty : Ty} {v : Value}, s.Typed known ty v → ty.spelt ⊆ pool → v.spelt ⊆ pool
  | _, _, .leaf _ _, _ | _, _, .signature _, _ => by simp [Value.spelt]
  | _, _, .absent, hty => by simpa only [Value.spelt] using hty
  | _, _, .present h, hty => by
      simp only [Value.spelt]
      exact List.append_subset.mpr ⟨hty, h.spelt_subset hs (List.cons_subset.mp hty).2⟩
  | _, _, .array _ h, hty => by
      simp only [Value.spelt]
      exact itemsSpelt_subset hs h hty
  | _, _, .seq _ h, hty => by
      simp only [Value.spelt]
      exact List.append_subset.mpr ⟨hty, itemsSpelt_subset hs h hty⟩
  | _, _, .struct hd h, _ => by
      simp only [Value.spelt]
      exact h.spelt_subset hs fun f hf => mem_fields_of_struct? hd hf
  | _, .union _ _ none, .union _ _ _, _ => by simp [Value.spelt]
  | _, .union _ _ (some v), .union hu _ h, _ => by
      simp only [Value.spelt, List.nil_append]
      exact h.spelt_subset hs (fun f hf => mem_fields_of_union? hu hf) v rfl

theorem itemsSpelt_subset (hs : s.spelt ⊆ pool) :
    ∀ {ty : Ty} {vs : List Value}, (∀ v ∈ vs, s.Typed known ty v) → ty.spelt ⊆ pool →
      Value.itemsSpelt vs ⊆ pool
  | _, [], _, _ => by simp [Value.itemsSpelt]
  | _, v :: vs, h, hty => by
      simp only [Value.itemsSpelt]
      obtain ⟨first, rest⟩ := List.forall_mem_cons.mp h
      exact List.append_subset.mpr ⟨first.spelt_subset hs hty, itemsSpelt_subset hs rest hty⟩

theorem TypedFields.spelt_subset (hs : s.spelt ⊆ pool) :
    ∀ {fs : List Field} {vs : List (String × Value)}, s.TypedFields known fs vs → fs ⊆ s.fields →
      Value.fieldsSpelt vs ⊆ pool
  | _, _, .nil, _ => by simp [Value.fieldsSpelt]
  | _, _, .cons (f := f) h t, hf => by
      simp only [Value.fieldsSpelt]
      obtain ⟨first, rest⟩ := List.cons_subset.mp hf
      exact List.append_subset.mpr
        ⟨h.spelt_subset hs (List.Subset.trans (spelt_field first) hs), t.spelt_subset hs rest⟩

/-- The optionals in what a union holds are spelt out by the schema. -/
theorem TypedArm.spelt_subset (hs : s.spelt ⊆ pool) :
    ∀ {arm : Option (Option Field)} {held : Option Value}, s.TypedArm known arm held →
      (∀ f, arm = some (some f) → f ∈ s.fields) → ∀ v, held = some v → v.spelt ⊆ pool
  | _, _, .void, _, _, hv => by cases hv
  | _, _, .value (f := f) h, hf, _, hv => by
      cases hv
      exact h.spelt_subset hs (List.Subset.trans (spelt_field (hf f rfl)) hs)

end

/-! ### Lingering -/

/-- A node that is new has in it, at its own name, a node of another type that is there or can be
inferred without a row of its own. -/
inductive Lingers (s : Schema) (name : String) : Ty → Ty → Prop where
  | inner (ty : Ty) : Lingers s name (.optional ty) ty
  | field {struct : String} {d : StructDecl} {f : Field} (hd : s.struct? struct = some d)
      (hf : f ∈ d.fields) (hn : Name.child name f.name = name) :
        Lingers s name (.struct struct) f.ty
  | arm {union : String} {u : ResolvedUnion} {f : Field} (hu : s.union? union = some u)
      (hf : u.arm? (s.initialTag u) = some (some f)) (hn : u.armName name f = name) :
      Lingers s name (.union union) f.ty

/-- No type lingers in itself. -/
def Fleeting (s : Schema) : Prop :=
  ∀ name ty, ¬ Relation.TransGen (s.Lingers name) ty ty

/-- Nothing lingers at the end of an inline arm that is neither an optional nor a union. -/
theorem fleeting_of_inline (named : ∀ f ∈ s.fields, f.name ≠ "")
    (inline : ∀ u ∈ s.unions, u.inline = true → ∀ f ∈ u.fields, f.ty.wraps = 0) : s.Fleeting := by
  refine fun name => Ty.not_transGen_of_rank Ty.wraps fun ty inner lingers => ?_
  cases lingers with
  | inner => exact Nat.lt_succ_self _
  | field hd hf hn =>
      exact absurd hn (Name.child_ne (.inr (named _ (mem_fields_of_struct? hd hf))))
  | arm hu hf hn =>
      rw [ResolvedUnion.armName] at hn
      split at hn
      next flag =>
        rw [inline _ (mem_of_union? hu) flag _ (mem_fields_of_arm? hf)]
        exact Nat.zero_lt_one
      next => exact absurd hn (Name.child_ne (.inr (named _ (mem_fields_of_union? hu hf))))

/-- The optionals of a pool that linger in a type at a name. -/
def Ahead (s : Schema) (pool : List Ty) (name : String) (ty : Ty) : Set Ty :=
  { o | o ∈ pool ∧ Relation.ReflTransGen (s.Lingers name) ty o }

/-- How many optionals of a pool linger in a type at a name. -/
noncomputable def ahead (s : Schema) (pool : List Ty) (name : String) (ty : Ty) : Nat :=
  (s.Ahead pool name ty).ncard

variable {name : String} {ty inner : Ty}

theorem finite_ahead : (s.Ahead pool name ty).Finite :=
  (List.finite_toSet pool).subset fun _ h => h.1

/-- No more optionals are ahead than there are in the pool. -/
theorem ahead_le_length : s.ahead pool name ty ≤ pool.length := by
  have subset : s.Ahead pool name ty ⊆ pool.toFinset := fun _ h => List.mem_toFinset.mpr h.1
  refine (Set.ncard_le_ncard subset (Finset.finite_toSet _)).trans ?_
  rw [Set.ncard_coe_finset]
  exact List.toFinset_card_le pool

/-- What is ahead of a type that lingers in another is ahead of that one, too. -/
theorem ahead_le_of_lingers (h : s.Lingers name ty inner) :
    s.ahead pool name inner ≤ s.ahead pool name ty :=
  Set.ncard_le_ncard (fun _ later => ⟨later.1, later.2.head h⟩) finite_ahead

/-- Where no type lingers in itself, an optional is ahead of itself and not of what it holds. -/
theorem ahead_lt (fleeting : s.Fleeting) (mem : Ty.optional inner ∈ pool) :
    s.ahead pool name inner < s.ahead pool name (.optional inner) := by
  refine Set.ncard_lt_ncard ⟨fun _ later => ⟨later.1, later.2.head (.inner inner)⟩, fun all => ?_⟩
    finite_ahead
  exact fleeting name _ (.head' (.inner inner) (all ⟨mem, .refl⟩).2)

end Schema
end XdrText
