import XdrText.Schema.Initial

/-!
# XdrText — what resolution guarantees

Definitions that resolve give a schema in which the fields of each struct have distinct names, every
type that a value needs to begin with is declared, and the tag that a new union has selects an arm
(`Definitions.resolve_sound`).
-/

namespace XdrText

/-! ### Results of checks in a row -/

/-- A sequence of steps succeeds if and only if both do. -/
theorem Except.bind_eq_ok {ε α β : Type} {x : Except ε α} {f : α → Except ε β} {b : β} :
    (x >>= f) = .ok b ↔ ∃ a, x = .ok a ∧ f a = .ok b := by
  cases x <;> simp [bind, Except.bind]

theorem Except.map_eq_ok {ε α β : Type} {f : α → β} {x : Except ε α} {b : β} :
    f <$> x = .ok b ↔ ∃ a, x = .ok a ∧ f a = b := by
  cases x <;> simp [Functor.map, Except.map]

theorem Except.map_eq_error {ε α β : Type} {f : α → β} {x : Except ε α} {e : ε} :
    f <$> x = .error e ↔ x = .error e := by
  cases x <;> simp [Functor.map, Except.map]

@[simp] theorem Except.mapError_ok {ε ε' α : Type} (f : ε → ε') (a : α) :
    (Except.ok a).mapError f = .ok a := rfl

@[simp] theorem Except.mapError_error {ε ε' α : Type} (f : ε → ε') (e : ε) :
    (Except.error e : Except ε α).mapError f = .error (f e) := rfl

@[simp] theorem Except.mapError_eq_ok {ε ε' α : Type} {f : ε → ε'} {x : Except ε α} {a : α} :
    x.mapError f = .ok a ↔ x = .ok a := by
  cases x with
  | error e =>
      constructor <;> intro h <;> cases h
  | ok b =>
      constructor <;> intro h <;> cases h <;> rfl

/-- A check of all elements succeeds if and only if it does for each. -/
theorem forM_eq_ok {ε α : Type} {f : α → Except ε PUnit} :
    ∀ {xs : List α}, xs.forM f = .ok () ↔ ∀ x ∈ xs, f x = .ok ()
  | [] => iff_of_true rfl (List.forall_mem_nil _)
  | x :: xs => by
      rw [List.forall_mem_cons, ← forM_eq_ok]
      exact Except.bind_eq_ok.trans ⟨fun ⟨_, hx, hxs⟩ => ⟨hx, hxs⟩, fun ⟨hx, hxs⟩ => ⟨_, hx, hxs⟩⟩

/-- The results are those of the elements, and no others. -/
theorem mapM_ok {ε α β : Type} {f : α → Except ε β} :
    ∀ {xs : List α} {ys : List β}, xs.mapM f = .ok ys →
      (∀ x ∈ xs, ∃ y ∈ ys, f x = .ok y) ∧ ∀ y ∈ ys, ∃ x ∈ xs, f x = .ok y
  | [], _, h => by cases h; simp
  | x :: xs, _, h => by
      rw [List.mapM_cons] at h
      obtain ⟨y, hy, h⟩ := Except.bind_eq_ok.mp h
      obtain ⟨ys, hys, h⟩ := Except.bind_eq_ok.mp h
      cases h
      obtain ⟨left, right⟩ := mapM_ok hys
      constructor
      · rintro z (_ | ⟨_, hz⟩)
        · exact ⟨y, List.mem_cons_self, hy⟩
        · exact (left z hz).imp fun w hw => ⟨List.mem_cons_of_mem _ hw.1, hw.2⟩
      · rintro w (_ | ⟨_, hw⟩)
        · exact ⟨x, List.mem_cons_self, hy⟩
        · exact (right w hw).imp fun z hz => ⟨List.mem_cons_of_mem _ hz.1, hz.2⟩

/-- Where the whole fails, some element has failed in this way. -/
theorem mapM_error {ε α β : Type} {f : α → Except ε β} {e : ε} :
    ∀ {xs : List α}, xs.mapM f = .error e → ∃ x ∈ xs, f x = .error e
  | [], h => by cases h
  | x :: xs, h => by
      rw [List.mapM_cons] at h
      cases hx : f x with
      | error e' =>
          rw [hx] at h
          cases h
          exact ⟨x, List.mem_cons_self, hx⟩
      | ok y =>
          rw [hx] at h
          cases hxs : xs.mapM f with
          | error e' =>
              rw [hxs] at h
              cases h
              obtain ⟨z, hz, hfz⟩ := mapM_error hxs
              exact ⟨z, List.mem_cons_of_mem _ hz, hfz⟩
          | ok ys => rw [hxs] at h; cases h

/-- There are results if and only if there is one for each element. -/
theorem exists_mapM_eq_ok {ε α β : Type} {f : α → Except ε β} {xs : List α} :
    (∃ ys, xs.mapM f = .ok ys) ↔ ∀ x ∈ xs, ∃ y, f x = .ok y := by
  cases h : xs.mapM f with
  | ok ys => exact iff_of_true ⟨ys, rfl⟩ fun x hx => ((mapM_ok h).1 x hx).imp fun _ => And.right
  | error e =>
      refine iff_of_false nofun fun all => ?_
      obtain ⟨x, hx, he⟩ := mapM_error h
      obtain ⟨y, hy⟩ := all x hx
      rw [he] at hy
      cases hy

namespace Schema
variable (s : Schema)

/-- The types that an initial value of a type enters are declared. -/
def Supplies : Ty → Prop
  | .enum name => (s.enum? name).isSome
  | .struct name => (s.struct? name).isSome
  | .union name => (s.union? name).isSome
  | .array elem n => n = 0 ∨ Supplies elem
  | _ => True

/-- What is to be had of a schema that was resolved: the types that its fields enter are declared,
and the tag that a union begins with has an arm. -/
structure Sound : Prop where
  fields_nodup : ∀ d ∈ s.structs, (d.fields.map Field.name).Nodup
  supplies_field : ∀ d ∈ s.structs, ∀ f ∈ d.fields, s.Supplies f.ty
  supplies_arm : ∀ u ∈ s.unions, ∀ v f, u.arm? v = some (some f) → s.Supplies f.ty
  isSome_tagEnum : ∀ u ∈ s.unions, ∀ name, u.tagType = .enum name → (s.enum? name).isSome
  hasArm_initialTag : ∀ u ∈ s.unions, u.hasArm (s.initialTag u)

theorem mem_of_struct? {s : Schema} {name : String} {d : StructDecl} (h : s.struct? name = some d) :
    d ∈ s.structs :=
  List.mem_of_find?_eq_some h

theorem mem_of_union? {s : Schema} {name : String} {u : ResolvedUnion}
    (h : s.union? name = some u) :
    u ∈ s.unions :=
  List.mem_of_find?_eq_some h

theorem mem_fields_of_struct? {s : Schema} {name : String} {d : StructDecl}
    (h : s.struct? name = some d) {f : Field} (hf : f ∈ d.fields) : f ∈ s.fields :=
  List.mem_append_left _ (List.mem_flatMap_of_mem (mem_of_struct? h) hf)

/-- The field of an arm that is selected is a field of the union. -/
theorem mem_fields_of_arm? {u : ResolvedUnion} {v : Int32} {f : Field}
    (hf : u.arm? v = some (some f)) : f ∈ u.fields := by
  simp only [ResolvedUnion.arm?] at hf
  split at hf
  next i _ =>
    obtain ⟨a, hi, hfield⟩ := Option.map_eq_some_iff.mp hf
    exact List.mem_append_left _ (List.mem_filterMap.mpr ⟨a, List.mem_of_getElem? hi, hfield⟩)
  next => exact List.mem_append_right _ (by simp [hf])

/-- The field of an arm that is selected is a field of the schema. -/
theorem mem_fields_of_union? {s : Schema} {name : String} {u : ResolvedUnion}
    (h : s.union? name = some u) {v : Int32} {f : Field} (hf : u.arm? v = some (some f)) :
    f ∈ s.fields :=
  List.mem_append_right _ (List.mem_flatMap_of_mem (mem_of_union? h) (mem_fields_of_arm? hf))

/-- A struct is found under its own name. -/
theorem name_of_struct? {s : Schema} {name : String} {d : StructDecl}
    (h : s.struct? name = some d) : d.name = name := by
  simpa using List.find?_some h

/-- So is a union. -/
theorem name_of_union? {s : Schema} {name : String} {u : ResolvedUnion}
    (h : s.union? name = some u) : u.name = name := by
  simpa using List.find?_some h

/-- The symbols with an arm are symbols of the tag's enum, and each has an arm. -/
theorem mem_armedSymbols {s : Schema} {u : ResolvedUnion} {v : Int32} :
    v ∈ s.armedSymbols u ↔
      (∃ name e, u.tagType = .enum name ∧ s.enum? name = some e ∧ v ∈ e.symbols.map Prod.snd) ∧
        u.hasArm v := by
  simp only [armedSymbols]
  split
  next ht => simp [ht]
  next name ht =>
    cases he : s.enum? name with
    | none => simp [ht, he]
    | some e => simp [ht, he, List.mem_filter]

end Schema

/-- The value that a case stands for where a tag has the enum `symbols`: a number is its own, and a
symbol has its value there. -/
def CaseLabel.value? (symbols : Option EnumDecl) : CaseLabel → Option Int32
  | .value v => some v
  | .symbol x => symbols.bind fun e => e.value? x

namespace Definitions
variable {d : Definitions} {s : Schema}

/-! ### The checks -/

/-- The fields of a container pass if their names are different, also from those seen before, and
their types are declared. -/
theorem checkFields_eq_ok {container : String} :
    ∀ {seen : List String} {fs : List Field}, d.checkFields container seen fs = .ok () ↔
      (fs.map Field.name).Nodup ∧ (∀ f ∈ fs, f.name ∉ seen) ∧ ∀ f ∈ fs, d.checkTy f.ty = .ok ()
  | _, [] => by simp [checkFields]
  | seen, f :: fs => by
      simp only [checkFields]
      split
      next known => exact iff_of_false nofun fun h => h.2.1 f List.mem_cons_self known
      next fresh =>
        simp only [Except.bind_eq_ok, checkFields_eq_ok, List.map_cons, List.nodup_cons,
          List.forall_mem_cons]
        constructor
        · rintro ⟨⟨⟩, hf, nodup, unseen, checked⟩
          refine ⟨⟨fun hm => ?_, nodup⟩, ⟨fresh, fun g hg hs => ?_⟩, hf, checked⟩
          · obtain ⟨g, hg, hname⟩ := List.mem_map.mp hm
            exact unseen g hg (hname ▸ List.mem_cons_self)
          · exact unseen g hg (List.mem_cons_of_mem _ hs)
        · rintro ⟨⟨other, nodup⟩, ⟨-, unseen⟩, hf, checked⟩
          refine ⟨(), hf, nodup, fun g hg hs => ?_, checked⟩
          rcases List.mem_cons.mp hs with same | hs
          · exact other (same ▸ List.mem_map_of_mem hg)
          · exact unseen g hg hs

/-- A case is valued if and only if it stands for something. -/
theorem caseValue_eq_ok {union : String} {symbols : Option EnumDecl} {c : CaseLabel} {v : Int32} :
    caseValue union symbols c = .ok v ↔ c.value? symbols = some v := by
  cases c with
  | value w => simp [caseValue, CaseLabel.value?]
  | symbol x =>
      simp only [caseValue, CaseLabel.value?]
      cases symbols.bind fun e => e.value? x <;> simp

/-- The values that the cases of arms stand for, where the first arm has index `i`. -/
def armCases (symbols : Option EnumDecl) : (i : Nat) → List Arm → List (Int32 × Nat)
  | _, [] => []
  | i, a :: as => (a.cases.filterMap (·.value? symbols)).map (·, i) ++ armCases symbols (i + 1) as

/-- A value is paired with the index of an arm if and only if it is that of one of its cases. -/
theorem mem_armCases {symbols : Option EnumDecl} {v : Int32} {j : Nat} :
    ∀ {i : Nat} {as : List Arm}, (v, j) ∈ armCases symbols i as ↔
      ∃ k a, as[k]? = some a ∧ j = i + k ∧ ∃ c ∈ a.cases, c.value? symbols = some v
  | _, [] => by simp [armCases]
  | i, a :: as => by
      simp only [armCases, List.mem_append, mem_armCases, List.mem_map, List.mem_filterMap,
        Prod.mk.injEq]
      constructor
      · rintro (⟨_, listed, rfl, rfl⟩ | ⟨k, b, hb, rfl, listed⟩)
        · exact ⟨0, a, rfl, rfl, listed⟩
        · exact ⟨k + 1, b, hb, by omega, listed⟩
      · rintro ⟨k, b, hb, rfl, listed⟩
        cases k with
        | zero =>
            cases hb
            exact .inl ⟨v, listed, rfl, rfl⟩
        | succ k => exact .inr ⟨k, b, hb, by omega, listed⟩

/-- The values of the arms are those of their cases, in the same order. -/
theorem map_fst_armCases {symbols : Option EnumDecl} :
    ∀ {i : Nat} {as : List Arm}, (armCases symbols i as).map Prod.fst =
      (as.flatMap Arm.cases).filterMap (·.value? symbols)
  | _, [] => rfl
  | i, a :: as => by
      simp [armCases, map_fst_armCases, Function.comp_def]

section
variable {union : String} {symbols : Option EnumDecl} {all : List (Int32 × Nat)}

/-- The cases of an arm are added where each of them stands for a value that is not listed yet. -/
theorem addCases_eq_ok {i : Nat} :
    ∀ {known : List (Int32 × Nat)} {cs : List CaseLabel}, (known.map Prod.fst).Nodup →
      (addCases union symbols i known cs = .ok all ↔
        (∀ c ∈ cs, (c.value? symbols).isSome) ∧
          all = known ++ (cs.filterMap (·.value? symbols)).map (·, i) ∧ (all.map Prod.fst).Nodup)
  | known, [], distinct => by
      simp only [addCases, Except.ok.injEq, List.filterMap_nil, List.map_nil, List.append_nil]
      exact ⟨fun h => ⟨List.forall_mem_nil _, h.symm, h ▸ distinct⟩, fun h => h.2.1.symm⟩
  | known, c :: cs, distinct => by
      simp only [addCases, Except.bind_eq_ok, caseValue_eq_ok, List.forall_mem_cons]
      cases hv : c.value? symbols with
      | none => simp
      | some v =>
          simp only [Option.some.injEq, exists_eq_left', Option.isSome_some, true_and,
            List.filterMap_cons_some hv, List.map_cons]
          by_cases listed : v ∈ known.map Prod.fst
          · rw [if_pos listed]
            refine iff_of_false nofun ?_
            rintro ⟨-, rfl, nodup⟩
            rw [List.map_append, List.map_cons, List.nodup_append] at nodup
            exact nodup.2.2 v listed v List.mem_cons_self rfl
          · have more : ((known ++ [(v, i)]).map Prod.fst).Nodup := by
              rw [List.map_append, List.nodup_append]
              refine ⟨distinct, by simp, fun w hw x hx same => listed ?_⟩
              obtain rfl : x = v := List.mem_singleton.mp hx
              exact same ▸ hw
            rw [if_neg listed, addCases_eq_ok more, List.append_assoc, List.singleton_append]

/-- The arms are added if and only if all their fields pass and all their cases stand for values, no
two for the same. -/
theorem addArms_eq_ok :
    ∀ {i : Nat} {known : List (Int32 × Nat)} {as : List Arm}, (known.map Prod.fst).Nodup →
      (d.addArms union symbols i known as = .ok all ↔
        (∀ a ∈ as, d.checkArm a.field = .ok () ∧ ∀ c ∈ a.cases, (c.value? symbols).isSome) ∧
          all = known ++ armCases symbols i as ∧ (all.map Prod.fst).Nodup)
  | i, known, [], distinct => by
      simp only [addArms, Except.ok.injEq, armCases, List.append_nil]
      exact ⟨fun h => ⟨List.forall_mem_nil _, h.symm, h ▸ distinct⟩, fun h => h.2.1.symm⟩
  | i, known, a :: as, distinct => by
      simp only [addArms, Except.bind_eq_ok, addCases_eq_ok distinct, List.forall_mem_cons,
        armCases, ← List.append_assoc]
      constructor
      · rintro ⟨⟨⟩, ha, more, ⟨stand, rfl, nodup⟩, h⟩
        obtain ⟨rest, hall, distinct⟩ := (addArms_eq_ok nodup).mp h
        exact ⟨⟨⟨ha, stand⟩, rest⟩, hall, distinct⟩
      · rintro ⟨⟨⟨ha, stand⟩, rest⟩, hall, nodup⟩
        have before : ((known ++ (a.cases.filterMap (·.value? symbols)).map (·, i)).map
            Prod.fst).Nodup := by
          rw [hall, List.map_append, List.nodup_append] at nodup
          exact nodup.1
        exact ⟨(), ha, _, ⟨stand, rfl, before⟩, (addArms_eq_ok before).mpr ⟨rest, hall, nodup⟩⟩

end

/-- A union resolves where its tag is known, its fields pass, its cases stand for values of their
own, and it has an arm. -/
theorem resolveUnion_eq_ok {u : UnionDecl} {r : ResolvedUnion} :
    d.resolveUnion u = .ok r ↔ ∃ symbols, d.tagEnum u.tagType = .ok symbols ∧
      (∀ a ∈ u.arms, d.checkArm a.field = .ok () ∧ ∀ c ∈ a.cases, (c.value? symbols).isSome) ∧
      d.checkArm u.otherwise.join = .ok () ∧ ((armCases symbols 0 u.arms).map Prod.fst).Nodup ∧
      ¬ (armCases symbols 0 u.arms = [] ∧ u.otherwise = none) ∧
      r = { u with caseArms := armCases symbols 0 u.arms } := by
  have none_known : (([] : List (Int32 × Nat)).map Prod.fst).Nodup := List.nodup_nil
  simp only [resolveUnion, Except.bind_eq_ok, addArms_eq_ok none_known, List.nil_append]
  constructor
  · rintro ⟨symbols, ht, caseArms, ⟨checked, rfl, nodup⟩, ⟨⟩, ho, h⟩
    split at h
    · cases h
    next armed => exact ⟨symbols, ht, checked, ho, nodup, armed, (Except.ok.inj h).symm⟩
  · rintro ⟨symbols, ht, checked, ho, nodup, armed, rfl⟩
    exact ⟨symbols, ht, _, ⟨checked, rfl, nodup⟩, (), ho, if_neg armed⟩

/-- What resolving one union guarantees. -/
theorem resolveUnion_ok {u : UnionDecl} {r : ResolvedUnion} (h : d.resolveUnion u = .ok r) :
    r.toUnionDecl = u ∧ (∀ c ∈ r.caseArms, c.2 < r.arms.length) ∧
      (∀ a ∈ r.arms, d.checkArm a.field = .ok ()) ∧ d.checkArm r.otherwise.join = .ok () ∧
      (∃ symbols, d.tagEnum r.tagType = .ok symbols) ∧
      ¬ (r.caseArms = [] ∧ r.otherwise = none) := by
  obtain ⟨symbols, ht, checked, ho, -, armed, rfl⟩ := resolveUnion_eq_ok.mp h
  refine ⟨rfl, fun c hc => ?_, fun a ha => (checked a ha).1, ho, ⟨symbols, ht⟩, armed⟩
  obtain ⟨k, a, ha, hk, -⟩ := mem_armCases.mp hc
  rw [hk, Nat.zero_add]
  exact (List.getElem?_eq_some_iff.mp ha).1

/-! ### Resolved definitions -/

/-- What resolution keeps of the definitions, and what it has checked of each struct and union. -/
theorem resolve_ok (h : d.resolve = .ok s) :
    s.enums = d.enums ∧ s.structs = d.structs ∧
      (∀ t ∈ d.structs, d.checkFields t.name [] t.fields = .ok ()) ∧
      (∀ u ∈ d.unions, ∃ r ∈ s.unions, d.resolveUnion u = .ok r) ∧
      ∀ r ∈ s.unions, ∃ u ∈ d.unions, d.resolveUnion u = .ok r := by
  simp only [resolve] at h
  split at h
  · cases h
  · obtain ⟨⟨⟩, hs, h⟩ := Except.bind_eq_ok.mp h
    obtain ⟨unions, hu, h⟩ := Except.bind_eq_ok.mp h
    cases h
    exact ⟨rfl, rfl, forM_eq_ok.mp hs, mapM_ok hu⟩

/-- A type that passes the check has its types declared. -/
theorem supplies_of_checkTy (h : d.resolve = .ok s) :
    ∀ {ty : Ty}, d.checkTy ty = .ok () → s.Supplies ty
  | .enum name, hc => by
      simp only [checkTy] at hc
      split at hc
      next hm =>
        obtain ⟨e, he, hname⟩ := List.mem_map.mp hm
        refine List.find?_isSome.mpr ⟨e, ?_, by simpa using hname⟩
        rwa [(resolve_ok h).1]
      next => cases hc
  | .struct name, hc => by
      simp only [checkTy] at hc
      split at hc
      next hm =>
        obtain ⟨t, ht, hname⟩ := List.mem_map.mp hm
        refine List.find?_isSome.mpr ⟨t, ?_, by simpa using hname⟩
        rwa [(resolve_ok h).2.1]
      next => cases hc
  | .union name, hc => by
      simp only [checkTy] at hc
      split at hc
      next hm =>
        obtain ⟨u, hu, hname⟩ := List.mem_map.mp hm
        obtain ⟨r, hr, hres⟩ := (resolve_ok h).2.2.2.1 u hu
        refine List.find?_isSome.mpr ⟨r, hr, ?_⟩
        rw [(resolveUnion_ok hres).1]
        simpa using hname
      next => cases hc
  | .array elem n, hc => .inr (supplies_of_checkTy h hc)
  | .bool, _ | .int, _ | .uint, _ | .hyper, _ | .uhyper, _ | .string _, _ | .amount, _ | .time, _
  | .fixed _, _ | .code _, _ | .bytes _, _ | .optional _, _ | .seq _ _, _ | .account, _ | .signer, _
  | .signature, _ | .asset, _ => trivial

/-- What a union can hold belongs to an arm or to all values without one. -/
theorem checkTy_of_mem_fields {r : ResolvedUnion} (ha : ∀ a ∈ r.arms, d.checkArm a.field = .ok ())
    (ho : d.checkArm r.otherwise.join = .ok ()) {f : Field} (hf : f ∈ r.fields) :
    d.checkTy f.ty = .ok () := by
  rcases List.mem_append.mp hf with hm | hm
  · obtain ⟨a, hi, hfield⟩ := List.mem_filterMap.mp hm
    have := ha a hi
    rwa [hfield] at this
  · rw [Option.mem_toList.mp hm] at ho
    exact ho

/-- A value that a case lists has an arm. -/
theorem hasArm_of_mem {r : ResolvedUnion} (below : ∀ c ∈ r.caseArms, c.2 < r.arms.length)
    {v : Int32} (hv : v ∈ r.caseArms.map Prod.fst) : r.hasArm v := by
  obtain ⟨c, hc, rfl⟩ := List.mem_map.mp hv
  simp only [ResolvedUnion.hasArm, ResolvedUnion.arm?]
  split
  next i hi =>
    obtain ⟨l₁, l₂, hl, -⟩ := List.lookup_eq_some_iff.mp hi
    have hm : (c.1, i) ∈ r.caseArms := by rw [hl]; simp
    rw [Option.isSome_map, List.getElem?_eq_getElem (below _ hm), Option.isSome_some]
  next hn => exact absurd (List.lookup_eq_none_iff.mp hn c hc) (by simp)

/-- The least value listed, or else any value at all, has an arm. -/
theorem hasArm_listed {r : ResolvedUnion} (below : ∀ c ∈ r.caseArms, c.2 < r.arms.length)
    (ne : ¬ (r.caseArms = [] ∧ r.otherwise = none)) :
    r.hasArm (((r.caseArms.map Prod.fst).min?).getD 0) := by
  cases hm : (r.caseArms.map Prod.fst).min? with
  | some v => exact hasArm_of_mem below (List.min?_mem hm)
  | none =>
      have hn : r.caseArms = [] := by simpa using hm
      simpa [ResolvedUnion.hasArm, ResolvedUnion.arm?, hn, Option.isSome_iff_ne_none] using
        fun ho => ne ⟨hn, ho⟩

/-- What is resolved is sound. -/
theorem resolve_sound (h : d.resolve = .ok s) : s.Sound where
  fields_nodup t ht := by
    obtain ⟨-, structs, checked, -⟩ := resolve_ok h
    exact (checkFields_eq_ok.mp (checked t (structs ▸ ht))).1
  supplies_field t ht f hf := by
    obtain ⟨-, structs, checked, -⟩ := resolve_ok h
    exact supplies_of_checkTy h ((checkFields_eq_ok.mp (checked t (structs ▸ ht))).2.2 f hf)
  supplies_arm r hr v f hf := by
    obtain ⟨u, -, hres⟩ := (resolve_ok h).2.2.2.2 r hr
    obtain ⟨-, -, ha, ho, -⟩ := resolveUnion_ok hres
    exact supplies_of_checkTy h (checkTy_of_mem_fields ha ho (Schema.mem_fields_of_arm? hf))
  isSome_tagEnum r hr name ht := by
    obtain ⟨u, -, hres⟩ := (resolve_ok h).2.2.2.2 r hr
    obtain ⟨-, -, -, -, ⟨symbols, hs⟩, -⟩ := resolveUnion_ok hres
    rw [ht] at hs
    simp only [tagEnum] at hs
    split at hs
    next e he =>
      simp only [Schema.enum?, (resolve_ok h).1, he, Option.isSome_some]
    next => cases hs
  hasArm_initialTag r hr := by
    obtain ⟨u, -, hres⟩ := (resolve_ok h).2.2.2.2 r hr
    obtain ⟨-, below, -, -, -, ne⟩ := resolveUnion_ok hres
    have listed := hasArm_listed below ne
    rw [Schema.initialTag]
    cases hm : (s.armedSymbols r).min? with
    | none => exact listed
    | some v => exact (Schema.mem_armedSymbols.mp (List.min?_mem hm)).2

end Definitions

end XdrText
