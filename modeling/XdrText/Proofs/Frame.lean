import XdrText.Proofs.Attribution
import XdrText.Proofs.Place

/-!
# XdrText — what a document does not mention

A leaf is read from the row of its own name, or for a bare source key from that of its short name,
and the two parts of a signature from a row each.  Without such a row the walk leaves them as they
are.  Of the parts of a node some are dropped and others are new; each that is there before and
after is read in its place (`Reader.Part`), unless it is in the arm of a union whose tag changed.

**Frame** (`Schema.readWithin_frame`).  What sits at one path before and after, behind the same tags
of unions, is the same unless the document has a row for it.
-/

namespace XdrText
open Key

/-! ### What is framed -/

/-- What the tag of a union stands for. -/
def Value.tag? : Value → Option Int32
  | .union _ tag _ => tag.discriminant?
  | _ => none

/-- The unions whose arms the path enters have the same tags in both trees. -/
def Value.SameTags (v w : Value) (path : List Step) : Prop :=
  ∀ before, before ++ [.arm] <+: path →
    (v.follow? before).bind Value.tag? = (w.follow? before).bind Value.tag?

namespace Value.SameTags
variable {v w a b : Value} {step : Step} {path : List Step}

/-- A path that enters the arm of a node asks for the same tag there. -/
theorem here (h : v.SameTags w (.arm :: path)) : v.tag? = w.tag? := by
  simpa [follow?] using h [] (by simp)

/-- What two trees share along a path, their parts share along the rest of it. -/
theorem part (h : v.SameTags w (step :: path)) (ha : v.child? step = some a)
    (hb : w.child? step = some b) : a.SameTags b path := by
  intro before hp
  have same := h (step :: before) (by simpa using hp)
  simpa only [follow?, ha, hb, Option.bind_some] using same

end Value.SameTags

/-- Where the table has no row for a leaf or for a part of a signature, it is the same. -/
structure Table.Frames (t : Table) (name : String) (x y : Value) : Prop where
  leaf : ∀ l, x = .leaf l → t.get? name = none →
    (∀ short data, l.bareSource? name = some (short, data) → t.get? short = none) → y = .leaf l
  hint : ∀ g, x = .signature g → t.get? (Name.child name "hint") = none →
    ∃ g', y = .signature g' ∧ g'.hint = g.hint
  body : ∀ g, x = .signature g → t.get? (Name.child name "signature") = none →
    ∃ g', y = .signature g' ∧ g'.body = g.body

namespace Table.Frames
variable {t : Table} {name : String} {x y : Value}

theorem refl : t.Frames name x x where
  leaf _ h _ _ := h
  hint g h _ := ⟨g, h, rfl⟩
  body g h _ := ⟨g, h, rfl⟩

/-- Rows that are taken away leave less to be framed. -/
theorem mono {t' : Table} (h : t'.Frames name x y)
    (less : ∀ n, t.get? n = none → t'.get? n = none) : t.Frames name x y where
  leaf l hx row short := h.leaf l hx (less _ row) fun m data hm => less _ (short m data hm)
  hint g hx row := h.hint g hx (less _ row)
  body g hx row := h.body g hx (less _ row)

end Table.Frames

namespace Reader
variable {r : Reader} {new : NodeReader} {t : Table} {name : String}

/-! ### Leaves and signatures -/

/-- A leaf without a row stays as it was. -/
theorem plainLeaf_of_none (h : t.get? name = none) (l : Leaf) :
    (r.plainLeaf name l t).value = l := by
  rw [plainLeaf_eq_judge]
  cases r.leafParser? l with
  | none => rfl
  | some _ => exact congrArg Outcome.value (Reading.judge_of_none h)

/-- A leaf is framed by its row and by the short name of its key. -/
theorem leaf_frames (l : Leaf) : t.Frames name (.leaf l) (.leaf (r.leaf name l t).value) where
  leaf _ h row short := by
    cases h
    refine congrArg Value.leaf ?_
    simp only [leaf]
    cases hb : l.bareSource? name with
    | none => exact plainLeaf_of_none row l
    | some p =>
        obtain ⟨m, data⟩ := p
        simp only [bareSource_eq_judge, bind, Reading.bind,
          Reading.judge?_of_none (short m data hb)]
        exact plainLeaf_of_none row l
  hint _ h := by cases h
  body _ h := by cases h

/-- Each part of a signature is framed by its own row. -/
theorem signature_frames (g : Signature) :
    t.Frames name (.signature g) (.signature (signature name g t).value) where
  leaf _ h := by cases h
  hint _ h row := by
    cases h
    refine ⟨_, rfl, ?_⟩
    rw [signature_eq_judge]
    exact congrArg Outcome.value (Reading.judge_of_none row)
  body _ h row := by
    cases h
    refine ⟨_, rfl, ?_⟩
    rw [signature_eq_judge]
    have less := (Reading.Shrinks.judge (Name.child name "hint") hintRule g.hint).get?_eq_none row
    exact congrArg Outcome.value (Reading.judge_of_none less)

/-! ### Parts of a node -/

/-- How the walk over a node leaves a part of it: as it was, or read under its name from what is
left of the table. -/
inductive Part (r : Reader) (new : NodeReader) (t : Table) (name : String) (v : Value) :
    Value → Prop
  | kept : Part r new t name v v
  | read {outer : Nat} {t' : Table} (h : ∀ n, t.get? n = none → t'.get? n = none) :
      Part r new t name v (r.nodeWith new outer name v t').value

theorem Part.mono {t' : Table} {v w : Value} (h : r.Part new t' name v w)
    (less : ∀ n, t.get? n = none → t'.get? n = none) : r.Part new t name v w := by
  cases h with
  | kept => exact .kept
  | read h => exact .read fun n hn => h n (less n hn)

/-- A part that is read in its place is framed. -/
theorem Part.frames {x y : Value} (h : r.Part new t name x y) : t.Frames name x y := by
  cases h with
  | kept => exact .refl
  | read less =>
      cases x with
      | leaf l =>
          simp only [nodeWith]
          exact (leaf_frames l).mono less
      | signature g =>
          simp only [nodeWith]
          exact (signature_frames g).mono less
      | _ => exact ⟨nofun, nofun, nofun⟩

/-- After the tag a union has what the tag selects, or it is left as it was. -/
theorem armWith_places {ty : String} {u : ResolvedUnion} {old tag : Int32} {line : Nat}
    {arm : Option Value} : (r.armWith new name ty u old tag line arm).Ensures fun w =>
      w = .union ty (.leaf (u.tagType.leaf old)) arm ∨
        ∃ held, w = .union ty (.leaf (u.tagType.leaf tag)) held := by
  cases ha : u.arm? tag with
  | none =>
      simp only [armWith, ha]
      exact .pure (.inr ⟨arm, rfl⟩)
  | some field? =>
      cases field? with
      | none =>
          simp only [armWith, ha]
          exact .pure (.inr ⟨none, rfl⟩)
      | some field =>
          rw [armWith_some ha]
          cases if tag = old then arm else none with
          | none =>
              rw [heldWith]
              exact create_ensures (fun _ _ _ => .inr ⟨_, rfl⟩) (.inl rfl) fun _ _ _ =>
                .inr ⟨none, rfl⟩
          | some w =>
              rw [heldWith]
              exact fun _ => .inr ⟨_, rfl⟩

/-- The tag on which a union settles is the old one, or what is read under its name. -/
theorem settle_cases (u : ResolvedUnion) (old : Int32) : (r.settle u name old t).value = old ∨
    u.tagType.leaf (r.settle u name old t).value = (r.leaf name (u.tagType.leaf old) t).value := by
  generalize hread : r.leaf name (u.tagType.leaf old) t = read
  have settled : (settleTag u name (Reading.lineOf name t).value (.leaf (u.tagType.leaf old))
      (.leaf read.value) read.rest).value.1 =
        .leaf (u.tagType.leaf (r.settle u name old t).value) :=
    hread ▸ congrArg Outcome.value
      (congrFun (settle_eq_judge r name u old fun _ tag _ => pure tag) t)
  rcases @settleTag_ensures u name (Reading.lineOf name t).value (.leaf (u.tagType.leaf old))
    (.leaf read.value) read.rest with kept | ⟨taken, -⟩
  · rw [kept] at settled
    exact .inl (TagType.leaf_injective (Value.leaf.inj settled)).symm
  · rw [taken] at settled
    exact .inr (Value.leaf.inj settled).symm

/-- The tag of a union is left as it was or read like a leaf, which it is. -/
theorem tag_part {outer : Nat} {ty : String} {u : ResolvedUnion} {d : Int32} {arm : Option Value}
    {b : Value} (hu : r.schema.union? ty = some u)
    (hb : (r.nodeWith new outer name (.union ty (.leaf (u.tagType.leaf d)) arm) t).value.child?
      .tag = some b) :
    r.Part new t (Name.child name u.tag) (.leaf (u.tagType.leaf d)) b := by
  rw [nodeWith_union hu, Reading.lineOf_bind] at hb
  simp only [bind, Reading.bind] at hb
  rcases armWith_places (r.settle u (Name.child name u.tag) d t).rest with left | ⟨held, left⟩
  · rw [left] at hb
    cases hb
    exact .kept
  · rw [left] at hb
    cases hb
    rcases @settle_cases r t (Name.child name u.tag) u d with same | same
    · rw [same]
      exact .kept
    · have read : (r.nodeWith new 0 (Name.child name u.tag) (.leaf (u.tagType.leaf d)) t).value =
          .leaf (r.leaf (Name.child name u.tag) (u.tagType.leaf d) t).value := by
        simp only [nodeWith]
        rfl
      rw [same]
      exact read ▸ .read fun _ => id

section
variable (sound : r.schema.Sound)
  (hnew : ∀ outer name ty v, True → r.schema.Shaped ty v → (new outer name v).Shrinks)
include sound hnew

/-- The walk over a node takes rows away and puts none there. -/
theorem nodeWith_shrinks {outer : Nat} {ty : Ty} {v : Value} (h : r.schema.Shaped ty v) :
    (r.nodeWith new outer name v).Shrinks :=
  Reader.shrinks.stepwise.nodeWith sound Schema.closed_all hnew v trivial h

theorem fieldsWith_part :
    ∀ (vs : List (String × Value)) {fs : List Field} {t : Table} {i : Nat} {f g : String × Value},
      r.schema.TypedFields (fun _ _ => True) fs vs → vs[i]? = some f →
      (r.fieldsWith new name vs t).value[i]? = some g → r.Part new t (Name.child name f.1) f.2 g.2
  | (_, v) :: vs, _, t, 0, _, _, .cons _ _, hf, hg => by
      simp only [fieldsWith] at hg
      cases hf
      cases hg
      exact .read fun _ => id
  | (_, v) :: vs, _, t, i + 1, _, _, .cons h hvs, hf, hg => by
      simp only [fieldsWith] at hg
      exact (fieldsWith_part vs hvs hf hg).mono fun _ =>
        (nodeWith_shrinks sound hnew h).get?_eq_none

theorem elements_part {elem : Ty} :
    ∀ (olds : List Value) {i n j : Nat} {more : List Value} {t : Table} {a b : Value},
      (∀ v ∈ olds, r.schema.Shaped elem v) → more.length ≤ n - olds.length → olds[j]? = some a →
      (r.elements new name i n olds more t).value[j]? = some b →
      r.Part new t (Name.index name (i + j)) a b
  | o :: olds, i, 0, j, more, t, a, b, _, hn, _, hb => by
      obtain rfl : more = [] := List.eq_nil_of_length_eq_zero (by omega)
      rw [elements_zero] at hb
      cases hb
  | o :: olds, i, n + 1, 0, more, t, a, b, _, _, ha, hb => by
      rw [elements_old] at hb
      cases ha
      cases hb
      exact .read fun _ => id
  | o :: olds, i, n + 1, j + 1, more, t, a, b, ho, hn, ha, hb => by
      rw [elements_old] at hb
      rw [List.length_cons] at hn
      have part := elements_part olds (fun v hv => ho v (List.mem_cons_of_mem _ hv))
          (by omega) ha hb
      rw [Nat.add_right_comm, Nat.add_assoc] at part
      exact part.mono fun _ => (nodeWith_shrinks sound hnew (ho o List.mem_cons_self)).get?_eq_none

/-- A part that is there before and after was left as it was or is read in its place. -/
theorem nodeWith_part {outer : Nat} {ty : Ty} {v a b : Value} {step : Step} {n : String}
    (h : r.schema.Shaped ty v) (hn : r.schema.stepName? name v step = some n)
    (ha : v.child? step = some a) (hb : (r.nodeWith new outer name v t).value.child? step = some b)
    (tags : step = .arm → v.tag? = (r.nodeWith new outer name v t).value.tag?) :
    r.Part new t n a b := by
  cases v with
  | leaf l => cases ha
  | signature g => cases ha
  | optional inner held =>
      cases step with
      | inner =>
          cases hn
          obtain rfl : held = some a := ha
          simp only [nodeWith, bind, Reading.bind] at hb
          by_cases present : (presence name (outer + 1) t).value = true
          · simp only [present, if_true, heldWith] at hb
            cases hb
            exact .read fun _ => (shrinks_sequential.presence name (outer + 1)).get?_eq_none
          · simp only [present] at hb
            cases hb
      | _ => cases ha
  | array items =>
      cases step with
      | elem i =>
          cases hn
          cases h with
          | array _ h =>
              rw [nodeWith_array] at hb
              have part := elements_part sound hnew items h (Nat.zero_le _) ha hb
              rwa [Nat.zero_add] at part
      | _ => cases ha
  | seq elem max items =>
      cases step with
      | elem i =>
          cases hn
          cases h with
          | seq _ h =>
              rw [nodeWith_seq, Reading.lineOf_bind] at hb
              have part := elements_part sound hnew items h
                (grow_ensures (fun _ _ => trivial) _).1 ha hb
              rw [Nat.zero_add] at part
              -- the rows that the length and the new elements leave
              have grown : ∀ line lacking, (r.grow elem line lacking).Shrinks :=
                Reader.shrinks.stepwise.grow trivial
              have counted := Reading.Shrinks.judge? (Name.length name)
                (countRule (Name.length name) max.toNat) items.length
              exact part.mono fun m hm => (grown _ _).get?_eq_none (counted.get?_eq_none hm)
      | _ => cases ha
  | struct ty fields =>
      cases step with
      | field i =>
          cases h with
          | struct _ h =>
              rw [nodeWith_struct] at hb
              obtain ⟨f, hf, rfl⟩ := Option.map_eq_some_iff.mp ha
              obtain ⟨g, hg, rfl⟩ := Option.map_eq_some_iff.mp hb
              simp only [Schema.stepName?, hf, Option.map_some] at hn
              cases hn
              exact fieldsWith_part sound hnew fields h hf hg
      | _ => cases ha
  | union ty tag arm =>
      obtain ⟨-, u, d, hu, rfl, -, harm⟩ := h.of_union
      cases step with
      | arm =>
          obtain rfl : arm = some a := ha
          have same := tags rfl
          rw [nodeWith_union hu, Reading.lineOf_bind] at hb same
          simp only [bind, Reading.bind] at hb same
          generalize he : (r.settle u (Name.child name u.tag) d t).value = e at hb same
          by_cases kept : e = d
          · subst kept
            rcases harm.void_or_value with ⟨-, hv⟩ | ⟨f, _, hf, hv, -⟩
            · cases hv
            · rw [armWith_some hf, if_pos rfl, heldWith] at hb
              cases hb
              obtain rfl : u.armName name f = n := by simpa [Schema.stepName?, hu, hf] using hn
              exact .read fun _ => (shrinks_sequential.settle u _ e).get?_eq_none
          · rcases armWith_places (r.settle u (Name.child name u.tag) d t).rest
              with left | ⟨held, left⟩
            · rw [left] at hb
              cases hb
              exact .kept
            · rw [left] at same
              simp only [Value.tag?, TagType.discriminant?_leaf, Option.some.injEq] at same
              exact absurd same.symm kept
      | tag =>
          cases ha
          obtain rfl : Name.child name u.tag = n := by simpa [Schema.stepName?, hu] using hn
          exact tag_part hu hb
      | _ => cases ha

/-- What sits at one path before and after was left as it was or is read in its place. -/
theorem nodeWith_place {path : List Step} {outer : Nat} {ty : Ty} {v x y : Value}
    (h : r.schema.Shaped ty v) (hx : v.follow? path = some x)
    (hy : (r.nodeWith new outer name v t).value.follow? path = some y)
    (tags : v.SameTags (r.nodeWith new outer name v t).value path) :
    ∃ n, r.schema.nameAt? name v path = some n ∧ r.Part new t n x y := by
  induction path generalizing outer name ty v t with
  | nil =>
      obtain rfl : v = x := Option.some.inj hx
      obtain rfl := Option.some.inj hy
      exact ⟨name, rfl, .read fun _ => id⟩
  | cons step path ih =>
      obtain ⟨a, ha, afterA⟩ := Option.bind_eq_some_iff.mp hx
      obtain ⟨b, hb, afterB⟩ := Option.bind_eq_some_iff.mp hy
      obtain ⟨⟨n, hn⟩, ty', hty⟩ := h.part ha name
      have named : ∀ m, r.schema.nameAt? n a path = some m →
          r.schema.nameAt? name v (step :: path) = some m := fun m hm => by
        simpa [Schema.nameAt?, hn, ha] using hm
      have part := nodeWith_part sound hnew h hn ha hb fun arm => (arm ▸ tags).here
      have tags := tags.part ha hb
      cases part with
      | kept =>
          obtain ⟨m, hm⟩ := hty.exists_nameAt afterA
          cases afterA.symm.trans afterB
          exact ⟨m, named m hm, .kept⟩
      | read less =>
          obtain ⟨m, hm, part⟩ := ih hty afterA afterB tags
          exact ⟨m, named m hm, part.mono less⟩

end

theorem newer_shrinks (sound : r.schema.Sound) (limit : Nat) :
    ∀ outer name ty v, True → r.schema.Shaped ty v → (r.newer limit outer name v).Shrinks := by
  intro outer name ty v _ h
  cases limit with
  | zero => exact .of_rest_eq fun _ => rfl
  | succ limit => exact Reader.shrinks.stepwise.node sound Schema.closed_all limit trivial h

end Reader

namespace Schema
variable {s : Schema}

/-- What sits at one path before and after reading, behind unions that keep their tags, was left as
it was or is read in its place. -/
theorem readWithin_place {d : Definitions} (resolved : d.resolve = .ok s) {ty : Ty} {v : Value}
    (h : s.HasType ty v) {limit : Nat} {native name doc : String} {path : List Step} {x y : Value}
    (before : v.follow? path = some x)
    (after : (s.readWithin limit native name doc v).value.follow? path = some y)
    (tags : v.SameTags (s.readWithin limit native name doc v).value path) :
    ∃ n, s.nameAt? name v path = some n ∧
      Reader.Part ⟨s, native⟩ (Reader.newer ⟨s, native⟩ limit) (Document.table doc) n x y := by
  have sound := Definitions.resolve_sound resolved
  have shrinks := Reader.newer_shrinks (r := ⟨s, native⟩) sound limit
  simp only [readWithin, Reader.node_eq] at after tags
  exact Reader.nodeWith_place sound shrinks h.shaped before after tags

/-- What sits at one path before and after reading, behind unions that keep their tags, is the same
where the document has no row for it. -/
theorem readWithin_frame {d : Definitions} (resolved : d.resolve = .ok s) {ty : Ty} {v : Value}
    (h : s.HasType ty v) (limit : Nat) (native name doc : String) {path : List Step} {x y : Value}
    (before : v.follow? path = some x)
    (after : (s.readWithin limit native name doc v).value.follow? path = some y)
    (tags : v.SameTags (s.readWithin limit native name doc v).value path) :
    ∃ n, s.nameAt? name v path = some n ∧ (Document.table doc).Frames n x y := by
  obtain ⟨n, hn, part⟩ := readWithin_place resolved h before after tags
  exact ⟨n, hn, part.frames⟩

/-- The fee and the memo are set, and the source account stays. -/
def feeAndMemo : Decoded :=
  Envelope.schema.readWithin 4 "native" "" "tx.fee: 7\ntx.memo.type: MEMO_ID\ntx.memo.id: 9"
    Envelope.initial

theorem readWithin_frame_envelope :
    Envelope.definitions.resolve = .ok Envelope.schema ∧
      Envelope.schema.HasType Envelope.ty Envelope.initial ∧
      Envelope.initial.follow? [.arm, .field 0, .field 0] =
        some (.leaf (.fixed (List.replicate 32 0))) ∧
      feeAndMemo.value.follow? [.arm, .field 0, .field 0] =
        some (.leaf (.fixed (List.replicate 32 0))) ∧
      Envelope.initial.SameTags feeAndMemo.value [.arm, .field 0, .field 0] ∧
      ∃ n, Envelope.schema.nameAt? "" Envelope.initial [.arm, .field 0, .field 0] = some n ∧
        (Document.table "tx.fee: 7\ntx.memo.type: MEMO_ID\ntx.memo.id: 9").Frames n
          (.leaf (.fixed (List.replicate 32 0))) (.leaf (.fixed (List.replicate 32 0))) := by
  have before : Envelope.initial.follow? [.arm, .field 0, .field 0] =
      some (.leaf (.fixed (List.replicate 32 0))) := by decide +kernel
  have after : feeAndMemo.value.follow? [.arm, .field 0, .field 0] =
      some (.leaf (.fixed (List.replicate 32 0))) := by decide +kernel
  have tags : Envelope.initial.SameTags feeAndMemo.value [.arm, .field 0, .field 0] := by
    intro path hp
    cases path with
    | nil => decide +kernel
    | cons step path =>
        -- there is no arm behind the first one
        have inside := (List.cons_prefix_cons.mp hp).2.subset List.mem_concat_self
        simp at inside
  exact ⟨Envelope.resolve_definitions, Envelope.initial_hasType, before, after, tags,
    readWithin_frame Envelope.resolve_definitions Envelope.initial_hasType 4 _ _ _
      before after tags⟩

end Schema
end XdrText
