import XdrText.Proofs.Walk

/-!
# XdrText — reading twice

Reading a document into what it left changes nothing, and it is found wrong in the same places.  The
second walk starts from another tree: sequences have the length that the document gives them, unions
the tag, optionals that became present are there.  But at each node it takes the rows that the first
walk took and comes to the outcome of the first walk: rules come to the same when they judge again
(`Rule.Fair`), and a new node of the first walk is one that is there in the second
(`Reader.Repeats`).

**Reading twice** (`Schema.readWithin_again`).  The second reading comes to the tree, the faults and
the requests of the first one.  The first one has to come to an end; where no type lingers in itself
it does (`Schema.read_again_of_fleeting`), and so it does for envelopes (`Envelope.read_again`).
-/

namespace XdrText
open Text Key

/-! ### Steps taken twice -/

namespace Reading
variable {α β : Type} {t : Table}

/-- A sequence of steps comes to its end if and only if both do. -/
theorem overrun_bind {x : Reading α} {f : α → Reading β} :
    ((x >>= f) t).overrun = false ↔
      (x t).overrun = false ∧ (f (x t).value (x t).rest).overrun = false := by
  simp [bind, Reading.bind]

theorem overrun_map {x : Reading α} (f : α → β) : ((f <$> x) t).overrun = (x t).overrun := by
  simp [Functor.map, Reading.bind, Reading.pure]

/-- Two sequences of steps come to the same when their parts do, on the tables that they meet. -/
theorem bind_eq {x y : Reading α} {f g : α → Reading β} (h : y t = x t)
    (hf : g (x t).value (x t).rest = f (x t).value (x t).rest) : (y >>= g) t = (x >>= f) t := by
  simp only [bind, Reading.bind, h, hf]

theorem map_eq {x y : Reading α} {f g : α → β} (h : y t = x t)
    (hf : g (x t).value = f (x t).value) :
    (g <$> y) t = (f <$> x) t := by
  simp only [Functor.map, Reading.bind, Function.comp_apply, h, hf]

/-- A row judged again comes to the same. -/
theorem judge?_again {name : String} {rule : Rule α} (fair : rule.Fair) {old old' : α}
    (h : ∀ a, (judge? name rule old t).value = some a → a = old') :
    judge? name rule old' t = judge? name rule old t := by
  cases hr : t.get? name with
  | none => rw [judge?_of_none hr, judge?_of_none hr]
  | some row =>
      rw [judge?_of_some hr] at h ⊢
      rw [judge?_of_some hr, ← h _ rfl, verdict_again fair]

/-- A row judged again in the outcome of the first judgement comes to the same. -/
theorem judge_again {name : String} {rule : Rule α} (fair : rule.Fair) (old : α) :
    judge name rule (judge name rule old t).value t = judge name rule old t := by
  cases hr : t.get? name with
  | none => rw [judge_of_none hr, judge_of_none hr]
  | some row => rw [judge_of_some hr, judge_of_some hr, verdict_again fair]

end Reading

/-! ### Leaves -/

/-- A leaf is a bare source key by its type and its name. -/
theorem Leaf.bareSource?_eq_none {name : String} {l l' : Leaf} (ty : l'.ty = l.ty)
    (h : l.bareSource? name = none) : l'.bareSource? name = none := by
  cases l' with
  | fixed data' =>
      cases l with
      | fixed data => simpa [bareSource?] using h
      | _ => cases ty
  | _ => rfl

/-- A leaf of the type of opaque data is opaque data of that length. -/
theorem Leaf.exists_fixed {l : Leaf} {n : Nat} (h : l.ty = .fixed n) :
    ∃ data, l = .fixed data ∧ data.length = n := by
  cases l with
  | fixed data => exact ⟨data, rfl, Ty.fixed.inj h⟩
  | _ => cases h

/-- A leaf of the type of a code is a code of that length. -/
theorem Leaf.exists_code {l : Leaf} {n : Nat} (h : l.ty = .code n) :
    ∃ data, l = .code data ∧ data.length = n := by
  cases l with
  | code data => exact ⟨data, rfl, Ty.code.inj h⟩
  | _ => cases h

namespace Reader
variable {r : Reader} {t : Table} {name : String}

/-- Reading a leaf keeps its type. -/
theorem plainLeaf_ensures_ty (l : Leaf) : (r.plainLeaf name l).Ensures fun l' => l'.ty = l.ty := by
  rw [plainLeaf_eq_judge]
  cases r.leafParser? l with
  | none => exact .pure rfl
  | some _ => exact Reading.judge_ensures rfl (leafRule_ty l)

/-- A leaf is read again from its row. -/
theorem plainLeaf_again (l : Leaf) :
    r.plainLeaf name (r.plainLeaf name l t).value t = r.plainLeaf name l t := by
  have kept : (r.plainLeaf name l t).value.ty = l.ty := plainLeaf_ensures_ty l t
  have parser : r.leafParser? (r.plainLeaf name l t).value = r.leafParser? l :=
    leafParser?_congr kept
  cases hp : r.leafParser? l with
  | none =>
      have first : r.plainLeaf name l = pure l := by rw [plainLeaf_eq_judge, hp]
      rw [first] at parser ⊢
      exact congrFun first t
  | some parse =>
      have first : r.plainLeaf name l = Reading.judge name (r.leafRule name) l := by
        rw [plainLeaf_eq_judge, hp]
      rw [plainLeaf_eq_judge, parser, hp, first]
      exact Reading.judge_again leafRule_fair l

/-- A key is read again from the account under its short name. -/
theorem bareSource_again (short : String) (l : Leaf) :
    r.bareSource name short (r.bareSource name short l t).value t =
      r.bareSource name short l t := by
  simp only [bareSource_eq_judge]
  refine Reading.bind_eq (Reading.judge?_again sourceRule_fair fun a ha => ?_) ?_
  · simp only [bind, Reading.bind, ha]
    rfl
  · simp only [bind, Reading.bind]
    cases (Reading.judge? short sourceRule l t).value with
    | none => exact plainLeaf_again l
    | some _ => rfl

/-- The short name gives a key, or what is there stays. -/
theorem verdict_sourceRule (old : Leaf) (row : Row) :
    (Reading.verdict name sourceRule old row).1 = old ∨
      ∃ key : Block 32, (Reading.verdict name sourceRule old row).1 = .fixed key.bytes := by
  simp only [Reading.verdict]
  split
  next s _ =>
    simp only [sourceRule, Rule.parsed]
    split
    next a _ =>
      cases a with
      | ed25519 key => exact .inr ⟨key, rfl⟩
      | muxed => exact .inl rfl
    next => exact .inl rfl
  next => exact .inl rfl

/-- A bare source key stays opaque data: it is the key that a row of its short name gives, and has
the length that it had without such a row. -/
theorem bareSource_fixed (short : String) (data : Bytes) :
    ∃ data', (r.bareSource name short (.fixed data) t).value = .fixed data' ∧
      (data'.length = data.length ∨
        (t.get? short).isSome ∧ ∃ key : Block 32, data' = key.bytes) := by
  rw [bareSource_eq_judge]
  simp only [bind, Reading.bind]
  cases hr : t.get? short with
  | none =>
      rw [Reading.judge?_of_none hr]
      obtain ⟨data', same, length⟩ := Leaf.exists_fixed (plainLeaf_ensures_ty (.fixed data) t)
      exact ⟨data', same, .inl length⟩
  | some row =>
      rw [Reading.judge?_of_some hr]
      rcases verdict_sourceRule (.fixed data) row with same | ⟨key, same⟩
      · exact ⟨data, same, .inl rfl⟩
      · exact ⟨key.bytes, same, .inr ⟨rfl, key, rfl⟩⟩

/-- A leaf is read again as it was left. -/
theorem leaf_again (l : Leaf) : r.leaf name (r.leaf name l t).value t = r.leaf name l t := by
  cases hb : l.bareSource? name with
  | none =>
      have first : r.leaf name l = r.plainLeaf name l := by rw [leaf, hb]
      have plain : (r.plainLeaf name l t).value.bareSource? name = none :=
        Leaf.bareSource?_eq_none (plainLeaf_ensures_ty l t) hb
      rw [first, leaf, plain]
      exact plainLeaf_again l
  | some p =>
      obtain ⟨rfl, hshort⟩ := Leaf.bareSource?_eq_some hb
      have source : ∀ data, r.leaf name (.fixed data) = r.bareSource name p.1 (.fixed data) := by
        intro data
        simp only [leaf, Leaf.bareSource?, hshort, Option.map_some]
      obtain ⟨data', same, -⟩ := @bareSource_fixed r t name p.1 p.2
      rw [source, same, source, ← same]
      exact bareSource_again p.1 _

/-- A signature is read again as it was left. -/
theorem signature_again (g : Signature) :
    signature name (signature name g t).value t = signature name g t := by
  simp only [signature_eq_judge]
  refine Reading.bind_eq (Reading.judge_again hintRule_fair g.hint) ?_
  exact Reading.bind_eq (Reading.judge_again bodyRule_fair g.body) rfl

/-- A tag is settled as it was left: its arm is there by now. -/
theorem settle_again (u : ResolvedUnion) (old : Int32) :
    r.settle u name (r.settle u name old t).value t = r.settle u name old t := by
  simp only [settle]
  cases r.tagParser? u.tagType with
  | none => rfl
  | some _ => exact Reading.judge_again tagRule_fair old

/-! ### The walk -/

/-- Walking over what was read comes to the same, whatever would read new nodes. -/
def Repeats (r : Reader) (read : NodeReader) : Prop :=
  ∀ outer name ty v t, r.schema.Shaped ty v → (read outer name v t).overrun = false →
    ∀ new, r.nodeWith new outer name (read outer name v t).value t = read outer name v t

/-- No more elements are left than were asked for. -/
theorem length_itemsWith {new : NodeReader} :
    ∀ (vs : List Value) {i n : Nat} {t : Table},
      (r.itemsWith new name i n vs t).value.length = min n vs.length
  | [], _, n, _ => by
      rw [itemsWith_nil]
      exact (Nat.min_zero n).symm
  | _ :: _, _, 0, _ => by simp [itemsWith, pure, Reading.pure]
  | v :: vs, _, n + 1, _ => by
      simp only [itemsWith, bind, Reading.bind, pure, Reading.pure, List.length_cons,
        length_itemsWith vs]
      omega

theorem length_newItems {new : NodeReader} :
    ∀ (vs : List Value) {i : Nat} {t : Table},
      (newItems new name i vs t).value.length = vs.length
  | [], _, _ => rfl
  | v :: vs, _, _ => by
      simp only [newItems, bind, Reading.bind, pure, Reading.pure,
        List.length_cons, length_newItems vs]

/-- There are as many elements as are kept and made. -/
theorem length_elements {new : NodeReader} (i n : Nat) (olds more : List Value) :
    (r.elements new name i n olds more t).value.length = min n olds.length + more.length := by
  simp only [elements, bind, Reading.bind, pure, Reading.pure, List.length_append, length_itemsWith,
    length_newItems]

section
variable {new : NodeReader}

/-- New elements are read again as elements that are there. -/
theorem newItems_again (hnew : r.Repeats new) (new' : NodeReader) {elem : Ty} :
    ∀ (vs : List Value) {i n : Nat} {t : Table}, (∀ v ∈ vs, r.schema.Shaped elem v) →
      vs.length ≤ n → (newItems new name i vs t).overrun = false →
      r.itemsWith new' name i n (newItems new name i vs t).value t = newItems new name i vs t
  | [], i, n, t, _, _, _ => congrFun (itemsWith_nil i n) t
  | v :: vs, i, n + 1, t, hv, hn, h => by
      simp only [newItems, Reading.overrun_bind] at h
      refine Reading.bind_eq (hnew _ _ elem v t (hv v List.mem_cons_self) h.1 new') ?_
      refine Reading.bind_eq ?_ rfl
      exact newItems_again hnew new' vs (fun w hw => hv w (List.mem_cons_of_mem _ hw))
        (Nat.le_of_succ_le_succ hn) h.2.1

/-- A new node is there when the walk comes again; one that could not be made is missing again. -/
theorem create_again (sound : r.schema.Sound) (hnew : r.Repeats new) (new' : NodeReader)
    {outer : Nat} {ty : Ty} {line : Nat} {place : Option Value → Value} {old : Value}
    (h : (r.create new outer name ty line place old t).overrun = false) :
    ∃ held, (r.create new outer name ty line place old t).value = place held ∧
      ∀ old', r.heldWith new' outer name place (r.create new' outer name ty line place old')
        held t = r.create new outer name ty line place old t := by
  simp only [create] at h ⊢
  cases hi : r.schema.initial ty with
  | ok v =>
      simp only [hi, Reading.overrun_map] at h ⊢
      refine ⟨some _, rfl, fun _ => ?_⟩
      simp only [heldWith]
      exact Reading.map_eq (hnew outer name ty v t (Schema.initial_shaped sound hi) h new') rfl
  | error f =>
      cases f with
      | endlessType =>
          simp only [hi] at h
          cases h
      | _ => exact ⟨none, rfl, fun _ => by simp only [heldWith]⟩

/-- A sequence grows by as many elements as it lacks, or not at all. -/
theorem grow_cases {elem : Ty} {line lacking : Nat}
    (h : (r.grow elem line lacking t).overrun = false) :
    (∃ more, more.length = lacking ∧ r.grow elem line lacking = pure more) ∨
      (0 < lacking ∧ (r.grow elem line lacking t).value = []) := by
  rcases Nat.eq_zero_or_pos lacking with rfl | lacks
  · exact .inl ⟨[], rfl, grow_zero elem line⟩
  · cases hi : r.schema.initial elem with
    | ok v => exact .inl ⟨List.replicate lacking v, List.length_replicate, grow_eq _ _ fun _ => hi⟩
    | error f =>
        refine .inr ⟨lacks, ?_⟩
        simp only [grow, hi, Nat.ne_of_gt lacks, if_false] at h ⊢
        cases f with
        | endlessType => cases h
        | _ => rfl

/-- In the second walk a sequence has the length that the document gives it, unless it could not
grow. -/
theorem seq_again (sound : r.schema.Sound) (new' : NodeReader) {outer : Nat} {elem : Ty}
    {max : UInt32} {items : List Value}
    (again : ∀ {n : Nat} {more : List Value} {t : Table}, (∀ v ∈ more, r.schema.Shaped elem v) →
      more.length ≤ n - items.length → (r.elements new name 0 n items more t).overrun = false →
      r.itemsWith new' name 0 n (r.elements new name 0 n items more t).value t =
        r.elements new name 0 n items more t)
    (h : (r.nodeWith new outer name (.seq elem max items) t).overrun = false) :
    r.nodeWith new' outer name (r.nodeWith new outer name (.seq elem max items) t).value t =
      r.nodeWith new outer name (.seq elem max items) t := by
  let lengthName := Name.length name
  obtain ⟨line, walk⟩ : ∃ line, ∀ (new : NodeReader) (items : List Value),
      r.nodeWith new outer name (.seq elem max items) t = (do
        let n ← Reading.judge? lengthName (countRule lengthName max.toNat) items.length
        let more ← r.grow elem line (n.getD 0 - items.length)
        Value.seq elem max <$> r.elements new name 0 (n.getD 0) items more) t :=
    ⟨_, fun _ _ => by rw [nodeWith_seq, Reading.lineOf_bind]⟩
  simp only [walk, Reading.overrun_bind, Reading.overrun_map] at h
  obtain ⟨-, grows, ends⟩ := h
  generalize hj : Reading.judge? lengthName (countRule lengthName max.toNat) items.length t = j
    at grows ends
  generalize hn : j.value.getD 0 = n at grows ends
  have typed : ∀ v ∈ (r.grow elem line (n - items.length) j.rest).value, r.schema.Shaped elem v :=
    (grow_ensures (fun v => Schema.initial_shaped sound) j.rest).2
  rcases grow_cases grows with ⟨more, hmore, grown⟩ | ⟨lacks, none⟩
  · -- it has its length now, and nothing is lacking
    rw [grown] at ends typed
    have count : (r.elements new name 0 n items more j.rest).value.length = n := by
      rw [length_elements]
      omega
    have value : (r.nodeWith new outer name (.seq elem max items) t).value =
        .seq elem max (r.elements new name 0 n items more j.rest).value := by
      rw [walk]
      simp only [bind, Reading.bind, hj, hn, grown]
      rfl
    rw [value, walk, walk]
    refine Reading.bind_eq (Reading.judge?_again countRule_fair fun a ha => ?_) ?_
    · rw [hj] at ha
      rw [count, ← hn, ha]
      rfl
    · simp only [hj, hn, count, Nat.sub_self, grow_zero, grown, pure_bind, elements_all]
      exact Reading.map_eq (again typed (Nat.le_of_eq hmore) ends) rfl
  · -- it could not grow, and lacks as much again
    rw [none] at ends typed
    generalize hg : (r.grow elem line (n - items.length) j.rest).rest = t' at ends
    have count : (r.elements new name 0 n items [] t').value.length = items.length := by
      rw [length_elements, List.length_nil]
      omega
    have value : (r.nodeWith new outer name (.seq elem max items) t).value =
        .seq elem max (r.elements new name 0 n items [] t').value := by
      rw [walk]
      simp only [bind, Reading.bind, hj, hn, none, hg]
      rfl
    have same := again typed (Nat.zero_le _) ends
    rw [value, walk, walk]
    refine Reading.bind_eq (by rw [count]) ?_
    simp only [hj, hn, count]
    refine Reading.bind_eq rfl ?_
    simp only [none, hg]
    generalize (r.elements new name 0 n items [] t').value = items' at same
    rw [elements_all]
    exact Reading.map_eq same rfl

/-- In the second walk the tag of a union is that on which the first one settled. -/
theorem union_again {outer line : Nat} {ty : String} {u : ResolvedUnion} {d : Int32}
    {arm : Option Value} {out : Outcome Int32} (hu : r.schema.union? ty = some u)
    (hline : ((t.get? (Name.child name u.tag)).map Row.line).getD 0 = line)
    (hout : r.settle u (Name.child name u.tag) d t = out) (new' : NodeReader)
    (again : ∃ arm', (r.armWith new name ty u d out.value line arm out.rest).value =
        .union ty (.leaf (u.tagType.leaf out.value)) arm' ∧
      r.armWith new' name ty u out.value out.value line arm' out.rest =
        r.armWith new name ty u d out.value line arm out.rest) :
    r.nodeWith new' outer name
        (r.nodeWith new outer name (.union ty (.leaf (u.tagType.leaf d)) arm) t).value t =
      r.nodeWith new outer name (.union ty (.leaf (u.tagType.leaf d)) arm) t := by
  subst hline hout
  obtain ⟨arm', same, again⟩ := again
  have value : (r.nodeWith new outer name (.union ty (.leaf (u.tagType.leaf d)) arm) t).value =
      .union ty (.leaf (u.tagType.leaf (r.settle u (Name.child name u.tag) d t).value)) arm' := by
    rw [nodeWith_union hu, Reading.lineOf_bind]
    exact same
  rw [value, nodeWith_union hu, nodeWith_union hu, Reading.lineOf_bind, Reading.lineOf_bind]
  exact Reading.bind_eq (settle_again u d) again

mutual

/-- By recursion on the tree that was there at first. -/
theorem nodeWith_again (sound : r.schema.Sound) (hnew : r.Repeats new) (new' : NodeReader) :
    ∀ (v : Value) {outer : Nat} {name : String} {ty : Ty} {t : Table}, r.schema.Shaped ty v →
      (r.nodeWith new outer name v t).overrun = false →
      r.nodeWith new' outer name (r.nodeWith new outer name v t).value t =
        r.nodeWith new outer name v t
  | .leaf l, outer, name, _, t, _, _ => by
      simp only [nodeWith]
      exact Reading.map_eq (leaf_again l) rfl
  | .signature g, outer, name, _, t, _, _ => by
      simp only [nodeWith]
      exact Reading.map_eq (signature_again g) rfl
  | .optional inner held, outer, name, _, t, hty, h => by
      obtain ⟨rfl, hheld⟩ := hty.of_optional
      simp only [nodeWith, Reading.overrun_bind] at h
      by_cases present : (presence name (outer + 1) t).value = true
      · simp only [present, if_true, Reading.overrun_bind] at h
        obtain ⟨held', same, again⟩ := heldWith_again sound hnew new' held hheld h.2.2
        have value : (r.nodeWith new outer name (.optional inner held) t).value =
            .optional inner held' := by
          simp only [nodeWith, bind, Reading.bind, present, if_true]
          exact same
        rw [value]
        simp only [nodeWith]
        refine Reading.bind_eq rfl ?_
        simp only [present, if_true]
        exact Reading.bind_eq rfl (again _)
      · have value : (r.nodeWith new outer name (.optional inner held) t).value =
            .optional inner none := by
          simp only [nodeWith, bind, Reading.bind, present]
          rfl
        rw [value]
        simp only [nodeWith]
        refine Reading.bind_eq rfl ?_
        simp only [present]
        rfl
  | .array items, outer, name, _, t, .array _ hty, h => by
      simp only [nodeWith_array, Reading.overrun_map] at h
      have again := elements_again sound hnew new' items hty
          (List.forall_mem_nil _) (Nat.zero_le _) h
      have value : (r.nodeWith new outer name (.array items) t).value =
          .array (r.elements new name 0 items.length items [] t).value := by
        rw [nodeWith_array]
        rfl
      rw [value, nodeWith_array, nodeWith_array, elements_all, length_elements, Nat.min_self]
      exact Reading.map_eq again rfl
  | .seq elem max items, outer, name, _, t, .seq _ hty, h => by
      exact seq_again sound new' (fun hm hn h => elements_again sound hnew new' items hty hm hn h) h
  | .struct ty fields, outer, name, _, t, .struct _ hty, h => by
      simp only [nodeWith_struct, Reading.overrun_map] at h
      have value : (r.nodeWith new outer name (.struct ty fields) t).value =
          .struct ty (r.fieldsWith new name fields t).value := by
        rw [nodeWith_struct]
        rfl
      rw [value, nodeWith_struct, nodeWith_struct]
      exact Reading.map_eq (fieldsWith_again sound hnew new' fields hty h) rfl
  | .union ty tag arm, outer, name, _, t, hty, h => by
      obtain ⟨-, u, d, hu, rfl, -, harm⟩ := hty.of_union
      simp only [nodeWith_union hu, Reading.lineOf_bind, Reading.overrun_bind] at h
      refine union_again hu rfl rfl new' ?_
      replace h := h.2
      generalize (r.settle u (Name.child name u.tag) d t).value = e at h ⊢
      cases ha : u.arm? e with
      | none =>
          simp only [armWith, ha]
          exact ⟨arm, rfl, rfl⟩
      | some field? =>
          cases field? with
          | none =>
              simp only [armWith, ha]
              exact ⟨none, rfl, trivial⟩
          | some field =>
              simp only [armWith_some ha, if_true] at h ⊢
              by_cases same : e = d
              · subst same
                rw [if_pos rfl] at h ⊢
                obtain ⟨arm', value, again⟩ := heldWith_again sound hnew new' arm
                  (fun w hw => harm.of_value ha hw) h
                exact ⟨arm', value, again _⟩
              · rw [if_neg same, heldWith] at h ⊢
                obtain ⟨arm', value, again⟩ := create_again sound hnew new' h
                exact ⟨arm', value, again _⟩

/-- What is held is read again, also if it was new in the first walk. -/
theorem heldWith_again (sound : r.schema.Sound) (hnew : r.Repeats new) (new' : NodeReader) :
    ∀ (held : Option Value) {outer : Nat} {name : String} {ty : Ty} {line : Nat}
      {place : Option Value → Value} {old : Value} {t : Table},
      (∀ v, held = some v → r.schema.Shaped ty v) →
      (r.heldWith new outer name place (r.create new outer name ty line place old) held t).overrun =
        false →
      ∃ held', (r.heldWith new outer name place (r.create new outer name ty line place old) held
          t).value = place held' ∧
        ∀ old', r.heldWith new' outer name place
          (r.create new' outer name ty line place old') held' t =
          r.heldWith new outer name place (r.create new outer name ty line place old) held t
  | none, _, _, _, _, _, _, _, _, h => by
      simp only [heldWith] at h ⊢
      exact create_again sound hnew new' h
  | some v, outer, name, ty, line, place, old, t, hv, h => by
      simp only [heldWith, Reading.overrun_map] at h
      refine ⟨some (r.nodeWith new outer name v t).value, ?_, fun _ => ?_⟩
      · simp only [heldWith]
        rfl
      · simp only [heldWith]
        exact Reading.map_eq (nodeWith_again sound hnew new' v (hv v rfl) h) rfl

/-- The elements that are there in the end are read again as those that were there and the new
ones. -/
theorem elements_again (sound : r.schema.Sound) (hnew : r.Repeats new) (new' : NodeReader) :
    ∀ (olds : List Value) {name : String} {elem : Ty} {i n : Nat} {more : List Value} {t : Table},
      (∀ v ∈ olds, r.schema.Shaped elem v) → (∀ v ∈ more, r.schema.Shaped elem v) →
      more.length ≤ n - olds.length → (r.elements new name i n olds more t).overrun = false →
      r.itemsWith new' name i n (r.elements new name i n olds more t).value t =
        r.elements new name i n olds more t
  | [], name, elem, i, n, more, t, _, hm, hn, h => by
      have first : r.elements new name i n [] more = newItems new name i more := by
        simp [elements, itemsWith_nil]
      rw [first] at h ⊢
      exact newItems_again hnew new' more hm hn h
  | o :: olds, name, elem, i, 0, more, t, _, _, hn, _ => by
      obtain rfl : more = [] := List.eq_nil_of_length_eq_zero (by omega)
      rw [elements_zero]
      exact congrFun (itemsWith_nil i 0) t
  | o :: olds, name, elem, i, n + 1, more, t, ho, hm, hn, h => by
      rw [elements_old] at h ⊢
      simp only [Reading.overrun_bind] at h
      have node := nodeWith_again sound hnew new' o (ho o List.mem_cons_self) h.1
      refine Reading.bind_eq node (Reading.bind_eq ?_ rfl)
      refine elements_again sound hnew new' olds (fun w hw => ho w (List.mem_cons_of_mem _ hw))
        hm ?_ h.2.1
      rw [List.length_cons] at hn
      omega

/-- Fields are read again as they were left. -/
theorem fieldsWith_again (sound : r.schema.Sound) (hnew : r.Repeats new) (new' : NodeReader) :
    ∀ (vs : List (String × Value)) {name : String} {fs : List Field} {t : Table},
      r.schema.TypedFields (fun _ _ => True) fs vs → (r.fieldsWith new name vs t).overrun = false →
      r.fieldsWith new' name (r.fieldsWith new name vs t).value t = r.fieldsWith new name vs t
  | [], name, _, t, .nil, _ => by
      simp only [fieldsWith]
      rfl
  | (_, v) :: vs, name, _, t, .cons hv hvs, h => by
      simp only [fieldsWith, Reading.overrun_bind] at h
      have node := nodeWith_again sound hnew new' v hv h.1
      have fields := fieldsWith_again sound hnew new' vs hvs h.2.1
      simp only [fieldsWith]
      exact Reading.bind_eq node (Reading.bind_eq fields rfl)

end

/-- Where new nodes may be nested deeply enough, the walk repeats itself. -/
theorem node_repeats (sound : r.schema.Sound) (limit : Nat) : r.Repeats (r.node limit) := by
  induction limit with
  | zero =>
      intro outer name ty v t hv h new
      refine nodeWith_again sound ?_ new v hv h
      intro _ _ _ _ _ _ gaveUp
      cases gaveUp
  | succ limit ih =>
      intro outer name ty v t hv h new
      exact nodeWith_again sound ih new v hv h

end

end Reader

namespace Schema
variable {s : Schema}

section
variable {ty : Ty} {v : Value} (h : s.HasType ty v) {limit : Nat} {native name doc : String}
variable (complete : (s.readWithin limit native name doc v).complete = true)
include h complete

/-- What a reading that came to an end has left is left as it is. -/
theorem readWithin_left (sound : s.Sound) (limit' : Nat) :
    s.readWithin limit' native name doc (s.readWithin limit native name doc v).value =
      s.readWithin limit native name doc v := by
  have ends : (Reader.node ⟨s, native⟩ limit 0 name v (Document.table doc)).overrun = false := by
    simpa [readWithin] using complete
  have again := Reader.node_repeats (r := ⟨s, native⟩) sound limit 0 name ty v (Document.table doc)
    h.shaped ends (Reader.newer ⟨s, native⟩ limit')
  rw [← Reader.node_eq] at again
  simp only [readWithin, again]

end

/-- Where reading a document comes to an end, reading it again into what it left comes to the same
tree, the same faults and the same requests.  `Schema.read_again_of_fleeting` and
`Envelope.read_again` say where it does. -/
theorem readWithin_again {d : Definitions} (resolved : d.resolve = .ok s) {ty : Ty} {v : Value}
    (h : s.HasType ty v) {limit : Nat} {native name doc : String}
    (complete : (s.readWithin limit native name doc v).complete = true) (limit' : Nat) :
    s.readWithin limit' native name doc (s.readWithin limit native name doc v).value =
      s.readWithin limit native name doc v :=
  readWithin_left h complete (Definitions.resolve_sound resolved) limit'

/-- Another kind of envelope, a sequence that grows, and a memo that is unknown. -/
theorem readWithin_again_envelope :
    Envelope.definitions.resolve = .ok Envelope.schema ∧
      Envelope.schema.HasType Envelope.ty Envelope.initial ∧
      (Envelope.schema.readWithin 4 "native" ""
        "type: ENVELOPE_TYPE_TX\ntx.operations.len: 1\ntx.memo.type: MEMO_NOTE\n"
        Envelope.initial).complete = true ∧
      Envelope.schema.readWithin 0 "native" ""
          "type: ENVELOPE_TYPE_TX\ntx.operations.len: 1\ntx.memo.type: MEMO_NOTE\n"
          (Envelope.schema.readWithin 4 "native" ""
            "type: ENVELOPE_TYPE_TX\ntx.operations.len: 1\ntx.memo.type: MEMO_NOTE\n"
            Envelope.initial).value =
        Envelope.schema.readWithin 4 "native" ""
          "type: ENVELOPE_TYPE_TX\ntx.operations.len: 1\ntx.memo.type: MEMO_NOTE\n"
          Envelope.initial := by
  have complete : (Envelope.schema.readWithin 4 "native" ""
      "type: ENVELOPE_TYPE_TX\ntx.operations.len: 1\ntx.memo.type: MEMO_NOTE\n"
      Envelope.initial).complete = true := by decide +kernel
  exact ⟨Envelope.resolve_definitions, Envelope.initial_hasType, complete,
    readWithin_again Envelope.resolve_definitions Envelope.initial_hasType complete 0⟩

end Schema
end XdrText
