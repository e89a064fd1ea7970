import XdrText.Proofs.Envelope
import XdrText.Reader
import XdrText.Writer

/-!
# XdrText — reading and writing keep to types

**Preservation** (`Schema.readWithin_hasType`).  Reading any document into a value of a type leaves
a value of that type, whatever is wrong with the document.  A value that is shaped like a type is
written without a fault if and only if it is of the type (`Schema.write_faults_iff`).

The proof follows the walk.  `Reading.Ensures` says what holds of the value of a step of reading
whatever the table; the walk ensures the type of the node that it reads, given that new nodes are
read so.
-/

namespace XdrText
open Key Form Text

namespace Reading
variable {α β : Type} {x : Reading α} {P Q : α → Prop} {R : β → Prop}

/-- Whatever the table, the step comes to a value with the property. -/
def Ensures (x : Reading α) (P : α → Prop) : Prop :=
  ∀ t, P (x t).value

namespace Ensures

protected theorem pure {a : α} (h : P a) : (Pure.pure a : Reading α).Ensures P :=
  fun _ => h

/-- Where the walk gives up, it comes to what it is given. -/
theorem giveUp {a : α} (h : P a) : (Reading.giveUp a).Ensures P :=
  fun _ => h

/-- A sequence of steps ensures what the second does on all that the first ensures. -/
protected theorem bind {f : α → Reading β} (hx : x.Ensures Q) (hf : ∀ a, Q a → (f a).Ensures R) :
    (x >>= f).Ensures R :=
  fun t => hf _ (hx t) _

protected theorem map {f : α → β} (hx : x.Ensures fun a => R (f a)) : (f <$> x).Ensures R :=
  fun t => hx t

/-- What implies the property is enough. -/
theorem mono (h : ∀ a, Q a → P a) (hx : x.Ensures Q) : x.Ensures P :=
  fun t => h _ (hx t)

theorem trivial : x.Ensures fun _ => True :=
  fun _ => True.intro

end Ensures

/-- A value that was taken and parsed is a result of parsing. -/
theorem takeParsed_ensures {name : String} {parse : List Char → Except ParseFault α} :
    (takeParsed name parse).Ensures fun o => ∀ line a, o = some (line, a) →
      ∃ s, parse s = .ok a := by
  refine .bind .trivial fun e _ => ?_
  split
  · exact .pure (by simp)
  · exact .pure (by simp)
  next line value =>
    split
    next a ha =>
      refine .pure ?_
      rintro _ _ ⟨⟩
      exact ⟨value, ha⟩
    next => exact .bind .trivial fun _ _ => .pure (by simp)

/-- Data that is cut down is within the bound. -/
theorem bounded_ensures {name : String} {line : Nat} {data : Bytes} {max : Nat} :
    (bounded name line data max).Ensures fun b => b.length ≤ max := by
  simp only [bounded]
  split
  · exact .bind .trivial fun _ _ => .pure (List.length_take_le ..)
  · exact .pure (List.length_take_le ..)

end Reading

/-! ### Leaves -/

namespace Form

/-- Opaque data of fixed length is read with that length or not at all. -/
theorem Octets.length_scanFixed {n : Nat} {s : List Char} {b : Bytes}
    (h : Octets.scanFixed n s = .ok b) : b.length = n := by
  simp only [Octets.scanFixed] at h
  split at h
  · cases h
  · split at h
    next hn => cases h; exact hn
    next => cases h

/-- There are no more bytes scanned of a code than are asked for. -/
theorem Code.length_scanBytes : ∀ {n : Nat} {s : List Char} {r : Bytes × List Char},
    Code.scanBytes n s = .ok r → r.1.length ≤ n
  | 0, _, _, h => by cases h; exact Nat.le_refl 0
  | n + 1, [], _, h => by cases h; exact Nat.zero_le _
  | n + 1, c :: s, _, h => by
      simp only [Code.scanBytes] at h
      split at h
      · cases h; exact Nat.zero_le _
      · obtain ⟨_, -, h⟩ := Except.bind_eq_ok.mp h
        obtain ⟨bs, hbs, h⟩ := Except.bind_eq_ok.mp h
        cases h
        exact Nat.succ_le_succ (Code.length_scanBytes hbs)

/-- A code is filled up with zeros to its length. -/
theorem Code.length_scan {n : Nat} {s : List Char} {b : Bytes} (h : Code.scan n s = .ok b) :
    b.length = n := by
  simp only [Code.scan] at h
  obtain ⟨r, hr, h⟩ := Except.bind_eq_ok.mp h
  split at h
  · cases h
    have := Code.length_scanBytes hr
    simp only [List.length_append, List.length_replicate]
    omega
  · cases h

end Form

namespace Reader
variable {r : Reader}

/-- A symbol or a number that is read for an enum is that of a symbol. -/
theorem parseEnum_knows {s : Schema} {name : String} {e : EnumDecl} (he : s.enum? name = some e)
    {cs : List Char} {v : Int32} (h : parseEnum e cs = .ok v) : s.Knows name v := by
  simp only [parseEnum] at h
  split at h
  next w hw =>
    cases h
    obtain ⟨x, hx, rfl⟩ := Option.map_eq_some_iff.mp hw
    exact Schema.knows_of_mem he (List.mem_map_of_mem (List.mem_of_find?_eq_some hx))
  next w _ hw =>
    split at h
    next hs => cases h; exact ⟨e, he, hs⟩
    next => cases h
  next => cases h

/-- How a leaf is read depends on its type. -/
theorem leafParser?_congr {l l' : Leaf} (h : l'.ty = l.ty) :
    r.leafParser? l' = r.leafParser? l := by
  cases l <;> cases l' <;> first
    | (cases h <;> rfl)
    | (simp only [Leaf.ty, Ty.fixed.injEq, Ty.code.injEq] at h; simp only [leafParser?, h])

/-- A leaf that was parsed has the type of the leaf it is parsed for, and an enum has a symbol. -/
theorem leafParser?_ok {l l' : Leaf} {parse : List Char → Except ParseFault Leaf}
    (hp : r.leafParser? l = some parse) {s : List Char} (h : parse s = .ok l') :
    l'.ty = l.ty ∧ ∀ ty v, l' = .enum ty v → r.schema.Knows ty v := by
  cases l with
  | «enum» ty v =>
      obtain ⟨e, he, rfl⟩ := Option.map_eq_some_iff.mp hp
      obtain ⟨v', hv, rfl⟩ := Except.map_eq_ok.mp h
      exact ⟨rfl, by rintro _ _ ⟨⟩; exact parseEnum_knows he hv⟩
  | fixed data =>
      cases hp
      obtain ⟨b, hb, rfl⟩ := Except.map_eq_ok.mp h
      have hlen := Octets.length_scanFixed (Except.mapError_eq_ok.mp hb)
      exact ⟨by rw [Leaf.ty, Leaf.ty, hlen], fun _ _ h => by cases h⟩
  | code data =>
      cases hp
      obtain ⟨b, hb, rfl⟩ := Except.map_eq_ok.mp h
      have hlen := Code.length_scan (Except.mapError_eq_ok.mp hb)
      exact ⟨by rw [Leaf.ty, Leaf.ty, hlen], fun _ _ h => by cases h⟩
  | _ =>
      cases hp
      obtain ⟨_, -, rfl⟩ := Except.map_eq_ok.mp h
      exact ⟨rfl, fun _ _ h => by cases h⟩

/-- A leaf that is cut down is of its type, and within it. -/
theorem boundedLeaf_ensures {name : String} {line : Nat} {l : Leaf}
    (h : ∀ ty v, l = .enum ty v → r.schema.Knows ty v) :
    (boundedLeaf name line l).Ensures fun l' => l'.ty = l.ty ∧ l'.Within r.schema.Knows := by
  cases l with
  | string | bytes => exact .map (Reading.bounded_ensures.mono fun b hb => ⟨rfl, hb⟩)
  | «enum» ty v => exact .pure ⟨rfl, h ty v rfl⟩
  | _ => exact .pure ⟨rfl, trivial⟩

/-- A leaf read under its own name stays of its type and within it. -/
theorem plainLeaf_ensures {name : String} {l : Leaf} (h : l.Within r.schema.Knows) :
    (r.plainLeaf name l).Ensures fun l' => l'.ty = l.ty ∧ l'.Within r.schema.Knows := by
  simp only [plainLeaf]
  split
  next => exact .pure ⟨rfl, h⟩
  next parse hp =>
    refine .bind Reading.takeParsed_ensures fun o ho => ?_
    split
    next => exact .pure ⟨rfl, h⟩
    next line l' =>
      obtain ⟨s, hs⟩ := ho line l' rfl
      obtain ⟨hty, knows⟩ := leafParser?_ok hp hs
      exact hty ▸ boundedLeaf_ensures knows

/-- Reading a bare source key keeps 32 bytes 32 bytes. -/
theorem bareSource_ensures {name short : String} {data : Bytes} (hdata : data.length = 32) :
    (r.bareSource name short (.fixed data)).Ensures fun l' => l'.ty = .fixed 32 := by
  have kept : (Leaf.fixed data).ty = .fixed 32 := by rw [Leaf.ty, hdata]
  refine .bind .trivial fun e _ => ?_
  split
  next =>
    have h : (Leaf.fixed data).Within r.schema.Knows := trivial
    exact (plainLeaf_ensures h).mono fun l' hl => hl.1.trans kept
  next => exact .bind .trivial fun _ _ => .pure kept
  next line value =>
    split
    next key _ => exact .bind .trivial fun _ _ => .pure (by rw [Leaf.ty, key.length_bytes])
    next => exact .bind .trivial fun _ _ => .bind .trivial fun _ _ => .pure kept
    next => exact .bind .trivial fun _ _ => .bind .trivial fun _ _ => .pure kept

/-- So does a leaf that may be a bare source key, where those have 32 bytes. -/
theorem leaf_ensures {name : String} {l : Leaf} (h : l.Within r.schema.Knows)
    (hs : r.schema.BareSources name l.ty) :
    (r.leaf name l).Ensures fun l' => l'.ty = l.ty ∧ l'.Within r.schema.Knows := by
  simp only [leaf]
  cases hb : l.bareSource? name with
  | none => exact plainLeaf_ensures h
  | some p =>
      obtain ⟨rfl, hshort⟩ := Leaf.bareSource?_eq_some hb
      have hdata := hs.length_fixed hshort
      refine (bareSource_ensures hdata).mono fun l' hl => ⟨hl.trans (by rw [Leaf.ty, hdata]), ?_⟩
      cases l' with
      | string | bytes | «enum» => cases hl
      | _ => trivial

/-- The body of a signature stays within its maximum. -/
theorem signature_ensures {name : String} {g : Signature} (h : g.body.length ≤ Signature.maximum) :
    (signature name g).Ensures fun g' => g'.body.length ≤ Signature.maximum := by
  refine .bind .trivial fun hint _ => .bind .trivial fun body _ => ?_
  split
  · exact .pure h
  · exact .bind Reading.bounded_ensures fun b hb => .pure hb

end Reader

/-! ### Nodes -/

/-- A size that is set is within its bound. -/
theorem BoundedSize.value_set_le (size : BoundedSize) (n : Nat) :
    (size.set n).1.value ≤ size.bound := by
  simp only [BoundedSize.set]
  split
  next h => exact h
  next => exact Nat.le_refl _

namespace Reader
variable {r : Reader}

/-- The length of a sequence stays within its maximum. -/
theorem length_ensures {name : String} {max current : Nat} (h : current ≤ max) :
    (length name max current).Ensures fun p => p.2 ≤ max := by
  refine .bind .trivial fun e _ => ?_
  split
  · exact .pure (Nat.zero_le _)
  · exact .pure h
  next line value =>
    split
    next => exact .bind .trivial fun _ _ => .pure h
    next n _ =>
      have bounded := BoundedSize.value_set_le ⟨current, max⟩ n.toNat
      split
      next size hset => rw [hset] at bounded; exact .pure bounded
      next size _ hset => rw [hset] at bounded; exact .bind .trivial fun _ _ => .pure bounded

/-- A tag stays, or it is a new one that has an arm. -/
theorem settleTag_ensures {u : ResolvedUnion} {tagName : String} {line : Nat} {old new : Value} :
    (settleTag u tagName line old new).Ensures fun p =>
      p = (old, false) ∨ (p = (new, true) ∧ (new.discriminant?.bind u.arm?).isSome) := by
  simp only [settleTag]
  split
  · exact .pure (.inl rfl)
  · split
    next harm => exact .pure (.inr ⟨rfl, harm⟩)
    next => exact .bind .trivial fun _ _ => .pure (.inl rfl)

section
variable {new : NodeReader} {P : Value → Prop}

/-- A new node is read from the initial value of its type, or left out where that cannot be. -/
theorem create_ensures {outer : Nat} {name : String} {ty : Ty} {line : Nat}
    {place : Option Value → Value} {old : Value}
    (hnew : ∀ v, r.schema.initial ty = .ok v →
      (new outer name v).Ensures fun v => P (place (some v)))
    (hold : P old)
    (hnone : ∀ f, r.schema.initial ty = .error f → f ≠ .endlessType → P (place none)) :
    (r.create new outer name ty line place old).Ensures P := by
  simp only [create]
  split
  next v hv => exact .map (hnew v hv)
  next => exact .giveUp hold
  next f ne hf => exact .bind .trivial fun _ _ => .pure (hnone f hf ne)

/-- No more elements are made than lack, and all of them are initial. -/
theorem grow_ensures {elem : Ty} {line lacking : Nat} {Q : Value → Prop}
    (h : ∀ v, r.schema.initial elem = .ok v → Q v) :
    (r.grow elem line lacking).Ensures fun vs => vs.length ≤ lacking ∧ ∀ v ∈ vs, Q v := by
  simp only [grow]
  split
  · exact .pure ⟨Nat.zero_le _, by simp⟩
  · split
    next v hv =>
      refine .pure ⟨Nat.le_of_eq List.length_replicate, fun w hw => ?_⟩
      exact List.eq_of_mem_replicate hw ▸ h v hv
    next => exact .giveUp ⟨Nat.zero_le _, by simp⟩
    next => exact .bind .trivial fun _ _ => .pure ⟨Nat.zero_le _, by simp⟩

/-- How new nodes are read keeps them of their type. -/
def Keeps (s : Schema) (new : NodeReader) : Prop :=
  ∀ outer name ty v, s.HasType ty v → s.BareSources name ty →
    (new outer name v).Ensures (s.HasType ty)

/-- New elements are of their type, as many as are asked for. -/
theorem newItems_ensures (keeps : Keeps r.schema new) {name : String} {elem : Ty} :
    ∀ {i : Nat} {vs : List Value}, (∀ v ∈ vs, r.schema.HasType elem v) →
      (∀ j, j < i + vs.length → r.schema.BareSources (Name.index name j) elem) →
      (newItems new name i vs).Ensures fun ws =>
        ws.length = vs.length ∧ ∀ v ∈ ws, r.schema.HasType elem v
  | _, [], _, _ => .pure ⟨rfl, by simp⟩
  | i, v :: vs, h, hs => by
      simp only [List.length_cons] at hs
      refine .bind (keeps 0 _ elem v (h v List.mem_cons_self) (hs i (by omega))) fun w hw => ?_
      refine .bind (newItems_ensures keeps (fun x hx => h x (List.mem_cons_of_mem _ hx))
        fun j hj => hs j (by omega)) fun ws hws => .pure ⟨congrArg (· + 1) hws.1, ?_⟩
      exact List.forall_mem_cons.mpr ⟨hw, hws.2⟩

section
variable {name ty : String} {u : ResolvedUnion} {d : Int32}

/-- What is read over a tag is a tag of the same type. -/
theorem tag_ensures (ht : (u.tagType.leaf d).Within r.schema.Knows) :
    (Value.leaf <$> r.leaf (Name.child name u.tag) (u.tagType.leaf d)).Ensures fun w =>
      ∃ d', w = .leaf (u.tagType.leaf d') ∧ (u.tagType.leaf d').Within r.schema.Knows := by
  refine .map ((leaf_ensures ht (Schema.BareSources.tag u d)).mono fun l hl => ?_)
  obtain ⟨d', rfl⟩ := TagType.exists_leaf hl.1
  exact ⟨d', rfl, hl.2⟩

/-- A new arm is of the type of its field, and a sound schema supplies that type. -/
theorem createArm_ensures (sound : r.schema.Sound) (symbolic : r.schema.Symbolic)
    (keeps : Keeps r.schema new) (hu : r.schema.union? ty = some u)
    (hs : r.schema.BareSources name (.union ty)) (hd : (u.tagType.leaf d).Within r.schema.Knows)
    {f : Field} (hf : u.arm? d = some (some f)) {line : Nat} {old : Value}
    (hold : r.schema.HasType (.union ty) old) :
    (r.create new 0 (u.armName name f) f.ty line (.union ty (.leaf (u.tagType.leaf d)))
      old).Ensures (r.schema.HasType (.union ty)) := by
  refine create_ensures (fun v hv => ?_) hold (fun g hg ne => ?_)
  · refine (keeps _ _ f.ty v (Schema.initial_hasType sound symbolic hv) (hs.arm hu hf)).mono
      fun w hw => .union hu hd ?_
    rw [hf]
    exact .value hw
  · have supplied := sound.supplies_arm u (Schema.mem_of_union? hu) d f hf
    exact absurd (Schema.endless_of_initial sound supplied hg) ne

end

mutual

/-- A node that is there stays of its type, by recursion on the tree. -/
theorem nodeWith_keeps (sound : r.schema.Sound) (symbolic : r.schema.Symbolic)
    (keeps : Keeps r.schema new) :
    ∀ (v : Value) {outer : Nat} {name : String} {ty : Ty}, r.schema.HasType ty v →
      r.schema.BareSources name ty → (r.nodeWith new outer name v).Ensures (r.schema.HasType ty)
  | .leaf l, outer, name, ty, .leaf hl h, hs => by
      subst hl
      simp only [nodeWith]
      exact .map ((leaf_ensures h hs).mono fun l' hl => .leaf hl.1 hl.2)
  | .signature g, outer, name, _, .signature h, _ => by
      simp only [nodeWith]
      exact .map ((signature_ensures h).mono fun _ hg => .signature hg)
  | .optional inner held, outer, name, ty, h, hs => by
      obtain ⟨hty, hheld⟩ := h.of_optional
      rw [hty] at hs ⊢
      simp only [nodeWith]
      refine .bind .trivial fun present _ => ?_
      split
      · refine .bind .trivial fun line _ => ?_
        refine heldWith_keeps sound symbolic keeps held hheld hs.inner (fun w => .present) ?_
        refine create_ensures (fun v hv => ?_) .absent (fun _ _ _ => .absent)
        exact (keeps _ _ inner v (Schema.initial_hasType sound symbolic hv) hs.inner).mono
          fun _ => .present
      · exact .pure .absent
  | .array items, outer, name, .array elem n, .array hn h, hs => by
      simp only [nodeWith]
      refine .bind (itemsWith_keeps sound symbolic keeps items h
        fun j hj => hs.elem (by omega)) fun ws hws => .pure (.array ?_ hws.2)
      rw [hws.1, Nat.min_self, hn]
  | .seq elem max items, outer, name, _, .seq hn h, hs => by
      simp only [nodeWith]
      refine .bind (length_ensures hn) fun p hp => ?_
      refine .bind (grow_ensures fun v => Schema.initial_hasType sound symbolic) fun vs hvs => ?_
      refine .bind (itemsWith_keeps sound symbolic keeps items h
        fun j hj => hs.item (by omega)) fun kept hkept => ?_
      refine .bind (newItems_ensures keeps hvs.2 fun j hj => hs.item (by omega))
        fun more hmore => ?_
      refine .pure (.seq ?_ fun v hv => ?_)
      · rw [List.length_append]; omega
      · exact (List.mem_append.mp hv).elim (hkept.2 v) (hmore.2 v)
  | .struct _ fields, outer, name, _, .struct hd h, hs => by
      simp only [nodeWith]
      exact .bind (fieldsWith_keeps sound symbolic keeps fields h
        fun f hf => hs.field hd hf) fun ws hws => .pure (.struct hd hws)
  | .union ty tag arm, outer, name, _, h, hs => by
      obtain ⟨rfl, u, d, hu, rfl, ht, harm⟩ := h.of_union
      simp only [nodeWith, hu]
      refine .bind .trivial fun line _ => ?_
      refine .bind (tag_ensures ht) fun read hread => ?_
      obtain ⟨d', rfl, ht'⟩ := hread
      refine .bind settleTag_ensures fun p hp => ?_
      have unsettled : r.schema.HasType (.union ty) (.union ty (.leaf (u.tagType.leaf d)) arm) :=
        .union hu ht harm
      rcases hp with rfl | ⟨rfl, hsome⟩
      · -- the old tag, and the arm that is there
        simp only [TagType.discriminant?_leaf, Option.bind_some]
        rcases harm.void_or_value with ⟨ha, -⟩ | ⟨f, v, ha, hv, typed⟩
        · simp only [ha]
          exact .pure (.union hu ht (by rw [ha]; exact .void))
        · simp only [ha, Bool.false_eq_true, if_false]
          refine heldWith_keeps sound symbolic keeps arm (fun w hw => ?_) (hs.arm hu ha)
            (fun w hw => .union hu ht (by rw [ha]; exact .value hw))
            (createArm_ensures sound symbolic keeps hu hs ht ha unsettled)
          cases hv.symm.trans hw
          exact typed
      · -- another tag, and a new arm
        simp only [TagType.discriminant?_leaf, Option.bind_some] at hsome ⊢
        cases ha : u.arm? d' with
        | none => rw [ha] at hsome; cases hsome
        | some a =>
            cases a with
            | none => exact .pure (.union hu ht' (by rw [ha]; exact .void))
            | some f =>
                simp only [if_true]
                exact createArm_ensures sound symbolic keeps hu hs ht' ha unsettled

/-- What is held stays of its type, and so does what comes in its place. -/
theorem heldWith_keeps (sound : r.schema.Sound) (symbolic : r.schema.Symbolic)
    (keeps : Keeps r.schema new) :
    ∀ (held : Option Value) {outer : Nat} {name : String} {ty : Ty}
      {place : Option Value → Value} {otherwise : Reading Value} {Q : Value → Prop},
      (∀ v, held = some v → r.schema.HasType ty v) → r.schema.BareSources name ty →
      (∀ v, r.schema.HasType ty v → Q (place (some v))) → otherwise.Ensures Q →
      (r.heldWith new outer name place otherwise held).Ensures Q
  | none, _, _, _, _, _, _, _, _, _, h => by
      simp only [heldWith]
      exact h
  | some v, _, _, _, _, _, _, hv, hs, hp, _ => by
      simp only [heldWith]
      exact .map ((nodeWith_keeps sound symbolic keeps v (hv v rfl) hs).mono hp)

/-- The elements read are the first ones of the list. -/
theorem itemsWith_keeps (sound : r.schema.Sound) (symbolic : r.schema.Symbolic)
    (keeps : Keeps r.schema new) :
    ∀ (vs : List Value) {name : String} {elem : Ty} {i n : Nat},
      (∀ v ∈ vs, r.schema.HasType elem v) →
      (∀ j, j < i + min n vs.length → r.schema.BareSources (Name.index name j) elem) →
      (r.itemsWith new name i n vs).Ensures fun ws =>
        ws.length = min n vs.length ∧ ∀ v ∈ ws, r.schema.HasType elem v
  | [], name, elem, i, n, _, _ => by
      cases n <;> exact .pure ⟨by simp, by simp⟩
  | v :: vs, name, elem, i, 0, _, _ => .pure ⟨by simp, by simp⟩
  | v :: vs, name, elem, i, n + 1, h, hs => by
      simp only [itemsWith]
      simp only [List.length_cons] at hs
      refine .bind (nodeWith_keeps sound symbolic keeps v (h v List.mem_cons_self)
        (hs i (by omega))) fun w hw => ?_
      refine .bind (itemsWith_keeps sound symbolic keeps vs
        (fun x hx => h x (List.mem_cons_of_mem _ hx)) fun j hj => hs j (by omega)) fun ws hws => ?_
      refine .pure ⟨?_, List.forall_mem_cons.mpr ⟨hw, hws.2⟩⟩
      rw [List.length_cons, List.length_cons, hws.1]
      omega

/-- The fields stay of their types, in the order of declaration. -/
theorem fieldsWith_keeps (sound : r.schema.Sound) (symbolic : r.schema.Symbolic)
    (keeps : Keeps r.schema new) :
    ∀ (vs : List (String × Value)) {name : String} {fs : List Field},
      r.schema.TypedFields r.schema.Knows fs vs →
      (∀ f ∈ fs, r.schema.BareSources (Name.child name f.name) f.ty) →
      (r.fieldsWith new name vs).Ensures (r.schema.TypedFields r.schema.Knows fs)
  | [], _, _, .nil, _ => by
      simp only [fieldsWith]
      exact .pure .nil
  | (_, v) :: vs, name, _, .cons h t, hs => by
      simp only [fieldsWith]
      refine .bind (nodeWith_keeps sound symbolic keeps v h (hs _ List.mem_cons_self))
        fun w hw => ?_
      exact .bind (fieldsWith_keeps sound symbolic keeps vs t
        fun f hf => hs f (List.mem_cons_of_mem _ hf)) fun ws hws => .pure (.cons hw hws)

end

/-- Whatever depth new nodes may have, reading keeps types. -/
theorem node_keeps (sound : r.schema.Sound) (symbolic : r.schema.Symbolic) :
    ∀ limit, Keeps r.schema (r.node limit)
  | 0 => fun _ _ _ v h hs =>
      nodeWith_keeps sound symbolic (fun _ _ _ _ h _ => .giveUp h) v h hs
  | limit + 1 => fun _ _ _ v h hs =>
      nodeWith_keeps sound symbolic (node_keeps sound symbolic limit) v h hs

end

end Reader

/-! ### Writing -/

theorem lengthFault?_eq_none {length max : Nat} (h : length ≤ max) :
    lengthFault? length max = none :=
  if_neg (Nat.not_lt.mpr h)

theorem countFault?_eq_none {name : String} {size max : Nat} (h : size ≤ max) :
    countFault? name size max = none :=
  if_neg (Nat.not_lt.mpr h)

namespace Writer
variable {w : Writer}

/-- A leaf within its type is shown without a fault. -/
theorem plainLeaf_faults {name : String} {l : Leaf} (h : l.Within w.schema.Knows) :
    (w.plainLeaf name l).faults = [] := by
  cases l with
  | string data max | bytes data max =>
      simp [plainLeaf, lengthFault?_eq_none (show data.length ≤ max.toNat from h)]
  | «enum» ty v =>
      obtain ⟨e, he, hs⟩ := h
      obtain ⟨symbol, hsymbol⟩ := Option.isSome_iff_exists.mp hs
      simp [plainLeaf, «enum», he, hsymbol]
  | asset a => cases a <;> rfl
  | _ => rfl

/-- So is a bare source key, where those have 32 bytes. -/
theorem leaf_faults {name : String} {l : Leaf} (h : l.Within w.schema.Knows)
    (hs : w.schema.BareSources name l.ty) : (w.leaf name l).faults = [] := by
  simp only [leaf]
  cases hb : l.bareSource? name with
  | none => exact plainLeaf_faults h
  | some p =>
      obtain ⟨rfl, hshort⟩ := Leaf.bareSource?_eq_some hb
      simp [Block.ofBytes?, hs.length_fixed hshort, account]

mutual

/-- A value of a type is written without a fault. -/
theorem node_faults :
    ∀ (v : Value) {outer : Nat} {name : String} {ty : Ty}, w.schema.HasType ty v →
      w.schema.BareSources name ty → (w.node outer name v).faults = []
  | .leaf l, outer, name, _, .leaf hl h, hs => by
      subst hl
      simp only [node, leaf_faults h hs]
  | .signature g, outer, name, _, .signature h, _ => by
      simp [node, signature, lengthFault?_eq_none h]
  | .optional inner none, outer, name, _, .absent, _ => by simp [node]
  | .optional inner (some v), outer, name, _, .present h, hs => by
      simp [node, node_faults v h hs.inner]
  | .array items, outer, name, .array elem n, .array hn h, hs => by
      simp only [node]
      exact items_faults items h fun j hj => hs.elem (by omega)
  | .seq elem max items, outer, name, _, .seq hn h, hs => by
      have faults : (w.items name 0 items).faults = [] :=
        items_faults items h fun j hj => hs.item (by omega)
      simp [node, countFault?_eq_none hn, faults]
  | .struct _ fields, outer, name, _, .struct hd h, hs => by
      simp only [node]
      exact fields_faults fields h fun f hf => hs.field hd hf
  | .union ty tag none, outer, name, _, h, hs => by
      obtain ⟨rfl, u, d, hu, rfl, ht, harm⟩ := h.of_union
      have tagged : (w.leaf (Name.child name u.tag) (u.tagType.leaf d)).faults = [] :=
        leaf_faults ht (Schema.BareSources.tag u d)
      rcases harm.void_or_value with ⟨ha, -⟩ | ⟨_, _, -, hv, -⟩
      · simp [node, hu, ha, tagged]
      · cases hv
  | .union ty tag (some v), outer, name, _, h, hs => by
      obtain ⟨rfl, u, d, hu, rfl, ht, harm⟩ := h.of_union
      have tagged : (w.leaf (Name.child name u.tag) (u.tagType.leaf d)).faults = [] :=
        leaf_faults ht (Schema.BareSources.tag u d)
      rcases harm.void_or_value with ⟨-, hv⟩ | ⟨f, _, ha, hv, h⟩
      · cases hv
      · cases hv
        simp [node, hu, ha, tagged, node_faults v h (hs.arm hu ha)]

/-- Elements of their type are shown without a fault. -/
theorem items_faults :
    ∀ (vs : List Value) {name : String} {elem : Ty} {i : Nat},
      (∀ v ∈ vs, w.schema.HasType elem v) →
      (∀ j, j < i + vs.length → w.schema.BareSources (Name.index name j) elem) →
      (w.items name i vs).faults = []
  | [], _, _, _, _, _ => by simp [items]
  | v :: vs, name, elem, i, h, hs => by
      simp only [List.length_cons] at hs
      have first : (w.node 0 (Name.index name i) v).faults = [] :=
        node_faults v (h v List.mem_cons_self) (hs i (by omega))
      simp only [items, Written.faults_append, first, List.nil_append]
      exact items_faults vs (fun x hx => h x (List.mem_cons_of_mem _ hx)) fun j hj =>
        hs j (by omega)

/-- Fields of their types are shown without a fault. -/
theorem fields_faults :
    ∀ (vs : List (String × Value)) {name : String} {fs : List Field},
      w.schema.TypedFields w.schema.Knows fs vs →
      (∀ f ∈ fs, w.schema.BareSources (Name.child name f.name) f.ty) →
      (w.fields name vs).faults = []
  | [], _, _, .nil, _ => by simp [fields]
  | (_, v) :: vs, name, _, .cons h t, hs => by
      simp only [fields, Written.faults_append, node_faults v h (hs _ List.mem_cons_self),
        List.nil_append]
      exact fields_faults vs t fun f hf => hs f (List.mem_cons_of_mem _ hf)

end

/-- An enum that is written without a fault has a symbol. -/
theorem within_of_leaf_faults {name : String} {l : Leaf} (shape : l.Within fun _ _ => True)
    (h : (w.leaf name l).faults = []) : l.Within w.schema.Knows := by
  cases l with
  | «enum» ty v =>
      simp only [leaf, Leaf.bareSource?, plainLeaf, «enum»] at h
      split at h
      next => cases h
      next e he =>
        split at h
        next => cases h
        next symbol hs => exact ⟨e, he, by rw [hs]; rfl⟩
  | _ => exact shape

mutual

/-- By recursion on the tree: what is written of a part without a fault is of its type. -/
theorem hasType_of_faults :
    ∀ (v : Value) {outer : Nat} {name : String} {ty : Ty}, w.schema.Shaped ty v →
      (w.node outer name v).faults = [] → w.schema.HasType ty v
  | .leaf l, outer, name, _, .leaf hl shape, h => by
      simp only [node] at h
      exact .leaf hl (within_of_leaf_faults shape h)
  | .signature g, _, _, _, .signature hg, _ => .signature hg
  | .optional inner none, _, _, _, .absent, _ => .absent
  | .optional inner (some v), outer, name, _, .present shape, h => by
      simp only [node, Written.faults_append, List.append_eq_nil_iff] at h
      exact .present (hasType_of_faults v shape h.2)
  | .array items, outer, name, _, .array hn shape, h => by
      simp only [node] at h
      exact .array hn (items_hasType_of_faults items shape h)
  | .seq elem max items, outer, name, _, .seq hn shape, h => by
      simp only [node, Written.faults_append, List.append_eq_nil_iff] at h
      exact .seq hn (items_hasType_of_faults items shape h.1.2)
  | .struct _ fields, outer, name, _, .struct hd shape, h => by
      simp only [node] at h
      exact .struct hd (fields_hasType_of_faults fields shape h)
  | .union ty tag none, outer, name, _, shape, h => by
      obtain ⟨rfl, u, d, hu, rfl, ht, harm⟩ := shape.of_union
      rcases harm.void_or_value with ⟨ha, -⟩ | ⟨_, _, -, hv, -⟩
      · simp only [node, hu, TagType.discriminant?_leaf, ha, Written.faults_append,
          List.append_eq_nil_iff] at h
        exact .union hu (within_of_leaf_faults ht h.1) (ha ▸ .void)
      · cases hv
  | .union ty tag (some v), outer, name, _, shape, h => by
      obtain ⟨rfl, u, d, hu, rfl, ht, harm⟩ := shape.of_union
      rcases harm.void_or_value with ⟨-, hv⟩ | ⟨f, _, ha, hv, held⟩
      · cases hv
      · cases hv
        simp only [node, hu, TagType.discriminant?_leaf, ha, Written.faults_append,
          List.append_eq_nil_iff] at h
        exact .union hu (within_of_leaf_faults ht h.1) (ha ▸ .value (hasType_of_faults v held h.2))

/-- Elements that are shown without a fault have known values. -/
theorem items_hasType_of_faults :
    ∀ (vs : List Value) {name : String} {elem : Ty} {i : Nat},
      (∀ v ∈ vs, w.schema.Shaped elem v) → (w.items name i vs).faults = [] →
      ∀ v ∈ vs, w.schema.HasType elem v
  | [], _, _, _, _, _ => List.forall_mem_nil _
  | v :: vs, name, elem, i, shape, h => by
      simp only [items, Written.faults_append, List.append_eq_nil_iff] at h
      obtain ⟨first, rest⟩ := List.forall_mem_cons.mp shape
      exact List.forall_mem_cons.mpr
        ⟨hasType_of_faults v first h.1, items_hasType_of_faults vs rest h.2⟩

/-- Fields that are shown without a fault have known values. -/
theorem fields_hasType_of_faults :
    ∀ (vs : List (String × Value)) {name : String} {fs : List Field},
      w.schema.TypedFields (fun _ _ => True) fs vs → (w.fields name vs).faults = [] →
      w.schema.TypedFields w.schema.Knows fs vs
  | [], _, _, .nil, _ => .nil
  | (_, v) :: vs, name, _, .cons shape rest, h => by
      simp only [fields, Written.faults_append, List.append_eq_nil_iff] at h
      exact .cons (hasType_of_faults v shape h.1) (fields_hasType_of_faults vs rest h.2)

end

end Writer

/-! ### Documents -/

namespace Schema
variable {s : Schema}

theorem readWithin_typed (sound : s.Sound) (symbolic : s.Symbolic) (limit : Nat)
    (native doc : String) {name : String} {ty : Ty} {v : Value} (h : s.HasType ty v)
    (hs : s.BareSources name ty) : s.HasType ty (s.readWithin limit native name doc v).value :=
  Reader.node_keeps (r := ⟨s, native⟩) sound symbolic limit 0 name ty v h hs (Document.table doc)

/-- A tree of a type of the schema is shown without a fault, whoever annotates it. -/
theorem write_faults {a : Annotator} {name : String} {ty : Ty} {v : Value} (h : s.HasType ty v)
    (hs : s.BareSources name ty) : (s.write a name v).faults = [] :=
  Writer.node_faults v h hs

/-- Of a value that is shaped like a type only the symbols of its enums can be missing. -/
theorem write_faults_iff {a : Annotator} {name : String} {ty : Ty} {v : Value} (h : s.Shaped ty v)
    (sources : s.BareSources name ty) : (s.write a name v).faults = [] ↔ s.HasType ty v :=
  ⟨Writer.hasType_of_faults v h, fun typed => write_faults typed sources⟩

/-- Reading keeps a value of its type, whatever is wrong with the document and however deeply new
nodes may be nested, and what it leaves is written without a fault. -/
theorem readWithin_hasType {d : Definitions} (resolved : d.resolve = .ok s) (symbolic : s.Symbolic)
    {name : String} {ty : Ty} (sources : s.BareSources name ty) {v : Value} (h : s.HasType ty v)
    (limit : Nat) (native doc : String) (a : Annotator) :
    s.HasType ty (s.readWithin limit native name doc v).value ∧
      (s.write a name (s.readWithin limit native name doc v).value).faults = [] := by
  have kept := readWithin_typed (Definitions.resolve_sound resolved) symbolic limit native doc h
    sources
  exact ⟨kept, write_faults kept sources⟩

/-- An unknown memo, a count beyond its bound and a new operation without a line of its own. -/
theorem readWithin_hasType_envelope :
    Envelope.definitions.resolve = .ok Envelope.schema ∧ Envelope.schema.Symbolic ∧
      Envelope.schema.BareSources "" Envelope.ty ∧
      Envelope.schema.HasType Envelope.ty Envelope.initial ∧
      Envelope.schema.HasType Envelope.ty
        (Envelope.schema.readWithin 8 "native" ""
          "type: ENVELOPE_TYPE_TX\ntx.memo.type: MEMO_NOTE\ntx.operations.len: 101\nfee"
          Envelope.initial).value ∧
      (Envelope.schema.write .plain "" (Envelope.schema.readWithin 8 "native" ""
          "type: ENVELOPE_TYPE_TX\ntx.memo.type: MEMO_NOTE\ntx.operations.len: 101\nfee"
          Envelope.initial).value).faults = [] :=
  ⟨Envelope.resolve_definitions, Envelope.symbolic, Envelope.bareSources, Envelope.initial_hasType,
    readWithin_hasType Envelope.resolve_definitions Envelope.symbolic Envelope.bareSources
      Envelope.initial_hasType 8 _ _ _⟩

end Schema

end XdrText
