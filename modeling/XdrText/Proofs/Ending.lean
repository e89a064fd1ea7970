import XdrText.Proofs.Again
import XdrText.Proofs.Frame
import XdrText.Proofs.Lingering

/-!
# XdrText — reading comes to an end

A walk goes on without a new node only as long as the tree that is there; new nodes have to be paid
for.  Each takes a row, or is the value of an optional that is inferred from a row below its name,
so its name is not longer than that of the row.  What can be inferred at one name is what lingers
there, and gets less with each optional; at a longer name, and with each row that is taken, it
starts again (`Table.Pays`).  A node that is there can hold anything, so all optionals are ahead of
it; a new one holds its initial value (`Schema.Affords`).

**The walk ends** (`Reader.Ends.node`).  Where no type lingers in itself and all types have initial
values, the walk over a tree ends if new nodes may be nested as deeply as the table pays for.
`Schema.nestingLimit` is as much as that (`Schema.pays_nestingLimit`).
-/

namespace XdrText

/-! ### Rows that are left -/

namespace NameMap
variable {α : Type} {m m' : NameMap α} {name : String}

/-- The names of a map are in order, so none is there twice. -/
theorem nodup_names (m : NameMap α) : m.names.Nodup :=
  List.pairwise_map.mpr (m.sorted.imp fun lt same => by
    rw [same] at lt
    exact String.lt_irrefl _ lt)

theorem size_le_of_names (h : m'.names ⊆ m.names) : m'.size ≤ m.size := by
  have shorter := (m'.nodup_names.subperm h).length_le
  rwa [names, names, List.length_map, List.length_map] at shorter

theorem size_erase_lt {a : α} (h : m.get? name = some a) : (m.erase name).size < m.size := by
  obtain ⟨e, he, -⟩ := Option.map_eq_some_iff.mp h
  refine List.length_filter_lt_length_iff_exists.mpr ⟨e, List.mem_of_find?_eq_some he, ?_⟩
  simpa using List.find?_some he

end NameMap

/-- What rows a step leaves go by names that were there. -/
theorem Reading.Shrinks.names_subset {α : Type} {x : Reading α} (h : x.Shrinks) (t : Table) :
    (x t).rest.names ⊆ t.names := by
  intro n hn
  rw [← NameMap.contains_iff, NameMap.contains, Option.isSome_iff_exists] at hn ⊢
  exact hn.imp (h t n)

/-! ### What a table pays for -/

namespace Table

/-- The number of new nodes that can be nested in a node with a name, where `k` optionals are ahead
of it at this name: each row that is taken pays for itself and for `pool` optionals at each name
that a row can go on from. -/
def cost (t : Table) (longest pool : Nat) (name : String) (k : Nat) : Nat :=
  t.size * ((longest + 1) * pool + 1) +
    if name.length ≤ longest then (longest - name.length) * pool + k else 0

/-- The names of the rows are not longer than `longest`, and the cost is within the limit. -/
structure Pays (t : Table) (longest pool : Nat) (name : String) (k limit : Nat) : Prop where
  rows : ∀ n ∈ t.names, n.length ≤ longest
  cost_le : t.cost longest pool name k ≤ limit

namespace Pays
variable {t t' : Table} {longest pool k j limit : Nat} {name m : String}

theorem mono (h : t.Pays longest pool name k limit) (hj : j ≤ k) :
    t.Pays longest pool name j limit where
  rows := h.rows
  cost_le := by
    refine Nat.le_trans (Nat.add_le_add_left ?_ _) h.cost_le
    split
    · exact Nat.add_le_add_left hj _
    · exact Nat.le_refl 0

/-- Rows that are taken away lower the cost, and no name is longer than before. -/
theorem left (h : t.Pays longest pool name k limit) (less : t'.names ⊆ t.names) :
    t'.Pays longest pool name k limit where
  rows n hn := h.rows n (less hn)
  cost_le := by
    have rows := Nat.mul_le_mul_right ((longest + 1) * pool + 1) (NameMap.size_le_of_names less)
    exact Nat.le_trans (Nat.add_le_add_right rows _) h.cost_le

/-- At a longer name all optionals of the pool can be ahead again. -/
theorem longer (h : t.Pays longest pool name k limit) (hm : name.length < m.length) :
    t.Pays longest pool m pool limit where
  rows := h.rows
  cost_le := by
    refine Nat.le_trans (Nat.add_le_add_left ?_ _) h.cost_le
    split
    next hlong =>
      rw [if_pos (by omega)]
      have steps : longest - m.length + 1 ≤ longest - name.length := by omega
      have more := Nat.mul_le_mul_right pool steps
      rw [Nat.succ_mul] at more
      exact Nat.le_trans more (Nat.le_add_right _ _)
    next => exact Nat.zero_le _

/-- A row that is taken pays for a new node at any name. -/
theorem taken (h : t.Pays longest pool name k limit) (less : t'.names ⊆ t.names)
    (fewer : t'.size < t.size) : ∃ l, limit = l + 1 ∧ ∀ m, t'.Pays longest pool m pool l := by
  have row : t'.size * ((longest + 1) * pool + 1) + ((longest + 1) * pool + 1) ≤
      t.size * ((longest + 1) * pool + 1) := by
    rw [← Nat.succ_mul]
    exact Nat.mul_le_mul_right _ fewer
  have cost := h.cost_le
  rw [Table.cost] at cost
  refine ⟨limit - 1, by omega, fun m => ⟨fun n hn => h.rows n (less hn), ?_⟩⟩
  have above : (longest - m.length) * pool ≤ longest * pool :=
    Nat.mul_le_mul_right pool (Nat.sub_le _ _)
  rw [Table.cost, Nat.succ_mul] at *
  split <;> omega

/-- An optional that is inferred pays for what it holds. -/
theorem inferred (h : t.Pays longest pool name k limit) (hn : name.length ≤ longest) (hj : j < k) :
    ∃ l, limit = l + 1 ∧ t.Pays longest pool name j l := by
  have cost := h.cost_le
  rw [Table.cost, if_pos hn] at cost
  exact ⟨limit - 1, by omega, h.rows, by rw [Table.cost, if_pos hn]; omega⟩

end Pays
end Table

/-! ### Steps that end -/

namespace Reader
variable {r : Reader} {t : Table} {name : String}

/-- Judgements and looks at the table do not give up. -/
theorem ends_sequential : Sequential fun x => ∀ t, (x t).overrun = false where
  pure _ _ := rfl
  bind hx hf t := Reading.overrun_bind.mpr ⟨hx t, hf t _⟩
  judge? name rule _ old t := by
    cases h : t.get? name with
    | none => rw [Reading.judge?_of_none h]
    | some _ => rw [Reading.judge?_of_some h]
  mentions _ _ := rfl
  lineOf _ _ := rfl
  discard _ _ := rfl

/-- An optional is there by its own row, which is taken, or by one below its name. -/
theorem presence_cases {depth : Nat} (h : (presence name depth t).value = true) :
    (presence name depth t).rest.size < t.size ∨
      (presence name depth t).rest = t ∧ ∃ n ∈ t.names, Name.Below name n := by
  rw [presence_eq_judge] at h ⊢
  cases hr : t.get? (Name.presence name depth) with
  | none =>
      simp only [bind, Reading.bind, Reading.judge_of_none hr, Reading.look] at h ⊢
      obtain ⟨n, hn, begins⟩ := Table.mentions_iff.mp h
      exact .inr ⟨trivial, n, hn, begins.below⟩
  | some row =>
      refine .inl (Nat.lt_of_le_of_lt (Nat.le_of_eq ?_) (NameMap.size_erase_lt hr))
      simp only [bind, Reading.bind, Reading.judge_of_some hr]
      cases (Reading.verdict (Name.presence name depth) (presenceRule (Name.presence name depth))
        none row).1 <;> rfl

/-- A sequence has a length by a row, which is taken. -/
theorem size_lt_of_judge? {α : Type} {rule : Rule α} {old a : α}
    (h : (Reading.judge? name rule old t).value = some a) :
    (Reading.judge? name rule old t).rest.size < t.size := by
  cases hr : t.get? name with
  | none =>
      rw [Reading.judge?_of_none hr] at h
      cases h
  | some row =>
      rw [Reading.judge?_of_some hr]
      exact NameMap.size_erase_lt hr

/-- A union has another tag by a row, which is taken. -/
theorem size_lt_of_settle {u : ResolvedUnion} {old : Int32}
    (h : (r.settle u name old t).value ≠ old) :
    (r.settle u name old t).rest.size < t.size := by
  cases hp : r.tagParser? u.tagType with
  | none =>
      simp only [settle, hp] at h
      exact absurd rfl h
  | some parse =>
      simp only [settle, hp] at h ⊢
      cases hr : t.get? name with
      | none =>
          rw [Reading.judge_of_none hr] at h
          exact absurd rfl h
      | some row =>
          rw [Reading.judge_of_some hr]
          exact NameMap.size_erase_lt hr

end Reader

/-! ### What a walk affords -/

/-- The table pays for the new nodes in a node, as if all optionals of the pool were ahead of it or,
where it is new itself, for those that are. -/
def Schema.Affords (s : Schema) (pool : List Ty) (longest : Nat) (t : Table) (name : String)
    (ty : Ty) (fresh : Prop) (limit : Nat) : Prop :=
  t.Pays longest pool.length name pool.length limit ∨
    fresh ∧ t.Pays longest pool.length name (s.ahead pool name ty) limit

namespace Schema.Affords
variable {s : Schema} {pool : List Ty} {longest limit : Nat} {t t' : Table} {name m : String}
  {ty inner : Ty} {fresh inside : Prop}

/-- A table that affords a walk pays for what is ahead of it, whether the node is new or not. -/
theorem pays (h : s.Affords pool longest t name ty fresh limit) :
    ∃ k, t.Pays longest pool.length name k limit :=
  h.elim (⟨_, ·⟩) fun h => ⟨_, h.2⟩

theorem left (h : s.Affords pool longest t name ty fresh limit) (less : t'.names ⊆ t.names) :
    s.Affords pool longest t' name ty fresh limit :=
  h.imp (·.left less) (.imp_right (·.left less))

/-- What is afforded for a new node is afforded where a node inside is new with it. -/
theorem imp (h : s.Affords pool longest t name ty fresh limit) (hf : fresh → inside) :
    s.Affords pool longest t name ty inside limit :=
  .imp_right (.imp_left hf) h

/-- A node inside goes by a longer name, or else lingers where the node around it is new. -/
theorem step (h : s.Affords pool longest t name ty fresh limit)
    (hm : m = name ∨ name.length < m.length)
    (hf : fresh → inside ∧ (m = name → s.Lingers name ty inner)) :
    s.Affords pool longest t m inner inside limit := by
  rcases hm with rfl | longer
  · refine .imp_right ?_ h
    rintro ⟨hfresh, pays⟩
    obtain ⟨hinside, lingers⟩ := hf hfresh
    exact ⟨hinside, pays.mono (ahead_le_of_lingers (lingers rfl))⟩
  · obtain ⟨k, pays⟩ := h.pays
    exact .inl (pays.longer longer)

/-- The arm of a new union is that of its initial tag. -/
theorem arm {union : String} {u : ResolvedUnion} (hu : s.union? union = some u) {d : Int32}
    {f : Field} (ha : u.arm? d = some (some f)) {w : Value}
    (h : s.Affords pool longest t name (.union union)
      (s.Fresh (.union union) (.union union (.leaf (u.tagType.leaf d)) (some w))) limit) :
    s.Affords pool longest t (u.armName name f) f.ty (s.Fresh f.ty w) limit := by
  refine h.step (u.armName_eq_or_longer name f) fun fresh => ?_
  obtain ⟨held, same, inside⟩ := fresh.of_union hu
  obtain ⟨-, tag, rfl⟩ := Value.union.inj same
  rw [TagType.leaf_injective (Value.leaf.inj tag)] at ha
  obtain ⟨_, hw, fresh⟩ := inside f ha
  cases hw
  exact ⟨fresh, .arm hu ha⟩

/-- What an optional holds can be inferred where no type lingers in itself. -/
theorem inferred (fleeting : s.Fleeting)
    (h : s.Affords pool longest t name (.optional inner) fresh limit)
    (mem : Ty.optional inner ∈ pool) (below : ∃ n ∈ t.names, Name.Below name n) :
    ∃ l, limit = l + 1 ∧ t.Pays longest pool.length name (s.ahead pool name inner) l := by
  obtain ⟨n, hn, below⟩ := below
  have fewer := @ahead_lt s pool name inner fleeting mem
  have short {k : Nat} (pays : t.Pays longest pool.length name k limit) : name.length ≤ longest :=
    Nat.le_trans below.length_le (pays.rows n hn)
  rcases h with pays | ⟨-, pays⟩
  · exact pays.inferred (short pays) (Nat.lt_of_lt_of_le fewer ahead_le_length)
  · exact pays.inferred (short pays) fewer

end Schema.Affords

/-! ### The walk ends -/

namespace Reader
variable {r : Reader} {new : NodeReader} {pool : List Ty} {longest limit : Nat}

/-- All types have initial values, none lingers in itself, and new nodes are read to their end where
the table pays for them. -/
structure Ends (r : Reader) (new : NodeReader) (pool : List Ty) (longest limit : Nat) : Prop where
  sound : r.schema.Sound
  spelt : r.schema.spelt ⊆ pool
  finite : ∀ ty, ¬ r.schema.Endless ty
  fleeting : r.schema.Fleeting
  shrinks : ∀ outer name ty v, True → r.schema.Shaped ty v → (new outer name v).Shrinks
  paid : ∀ l, limit = l + 1 → ∀ outer name ty v t, r.schema.initial ty = .ok v → ty.spelt ⊆ pool →
    t.Pays longest pool.length name (r.schema.ahead pool name ty) l →
      (new outer name v t).overrun = false

namespace Ends

theorem create (c : r.Ends new pool longest limit) {outer line : Nat} {name : String} {ty : Ty}
    {place : Option Value → Value} {old : Value} {t : Table} (hty : ty.spelt ⊆ pool)
    (pays : ∃ l, limit = l + 1 ∧ t.Pays longest pool.length name (r.schema.ahead pool name ty) l) :
    (r.create new outer name ty line place old t).overrun = false := by
  obtain ⟨l, hl, pays⟩ := pays
  simp only [Reader.create]
  cases hv : r.schema.initial ty with
  | ok v => rw [Reading.overrun_map, c.paid l hl outer name ty v t hv hty pays]
  | error f =>
      cases f with
      | endlessType => exact absurd hv (c.finite ty)
      | _ => rfl

theorem grow (c : r.Ends new pool longest limit) {elem : Ty} {line lacking : Nat} {t : Table} :
    (r.grow elem line lacking t).overrun = false := by
  simp only [Reader.grow]
  split
  · rfl
  · cases hv : r.schema.initial elem with
    | ok v => rfl
    | error f =>
        cases f with
        | endlessType => exact absurd hv (c.finite elem)
        | _ => rfl

theorem newItems (c : r.Ends new pool longest limit) {name : String} {elem : Ty}
    (helem : elem.spelt ⊆ pool) :
    ∀ (vs : List Value) {i : Nat} {t : Table}, (∀ v ∈ vs, r.schema.initial elem = .ok v) →
      (vs ≠ [] → ∃ l, limit = l + 1 ∧ ∀ m, t.Pays longest pool.length m pool.length l) →
        (Reader.newItems new name i vs t).overrun = false
  | [], _, _, _, _ => rfl
  | v :: vs, i, t, hv, pays => by
      obtain ⟨first, rest⟩ := List.forall_mem_cons.mp hv
      obtain ⟨l, hl, pays⟩ := pays (List.cons_ne_nil v vs)
      have less := (c.shrinks 0 (Name.index name i) elem v trivial
        (Schema.initial_shaped c.sound first)).names_subset t
      simp only [Reader.newItems, Reading.overrun_bind]
      refine ⟨c.paid l hl _ _ elem v t first helem ((pays _).mono Schema.ahead_le_length), ?_, rfl⟩
      exact newItems c helem vs rest fun _ => ⟨l, hl, fun m => (pays m).left less⟩

/-- A sequence grows by the row of its length. -/
theorem seq (c : r.Ends new pool longest limit) {outer k : Nat} {name : String} {elem : Ty}
    {max : UInt32} {items : List Value} {t : Table} (helem : elem.spelt ⊆ pool)
    (h : ∀ v ∈ items, r.schema.Shaped elem v) (pays : t.Pays longest pool.length name k limit)
    (kept : ∀ n t', t'.names ⊆ t.names → (r.itemsWith new name 0 n items t').overrun = false) :
    (r.nodeWith new outer name (.seq elem max items) t).overrun = false := by
  rw [nodeWith_seq, Reading.lineOf_bind]
  generalize ((t.get? (Name.length name)).map Row.line).getD 0 = line
  rw [Reading.overrun_bind]
  refine ⟨ends_sequential.judge? _ countRule_fair _ t, ?_⟩
  generalize hcount : Reading.judge? (Name.length name) (countRule (Name.length name) max.toNat)
    items.length t = count
  have counted : count.rest.names ⊆ t.names :=
    hcount ▸ (Reading.Shrinks.judge? _ _ _).names_subset t
  rw [Reading.overrun_bind]
  refine ⟨c.grow, ?_⟩
  generalize hmore : r.grow elem line (count.value.getD 0 - items.length) count.rest = more
  have grown : more.rest.names ⊆ count.rest.names :=
    hmore ▸ (Reader.shrinks.stepwise.grow trivial _ _).names_subset _
  have read : (r.itemsWith new name 0 (count.value.getD 0) items).Shrinks :=
    Reader.shrinks.stepwise.itemsWith c.sound Schema.closed_all c.shrinks items trivial h
  rw [Reading.overrun_map, elements, Reading.overrun_bind, Reading.overrun_bind]
  refine ⟨kept _ _ (List.Subset.trans grown counted), c.newItems helem _ ?_ fun grows => ?_, rfl⟩
  · exact hmore ▸ (grow_ensures (fun _ => id) count.rest).2
  · obtain ⟨n, hn⟩ : ∃ n, count.value = some n := by
      refine Option.ne_none_iff_exists'.mp fun none => grows ?_
      rw [← hmore, none, Option.getD_none, Nat.zero_sub, grow_zero]
      rfl
    subst hcount
    obtain ⟨l, hl, pays⟩ := pays.taken counted (size_lt_of_judge? hn)
    exact ⟨l, hl, fun m => (pays m).left (List.Subset.trans (read.names_subset _) grown)⟩

mutual

/-- By recursion on the tree that is there. -/
theorem nodeWith (c : r.Ends new pool longest limit) :
    ∀ (v : Value) {outer : Nat} {name : String} {ty : Ty} {t : Table}, r.schema.Shaped ty v →
      v.spelt ⊆ pool → r.schema.Affords pool longest t name ty (r.schema.Fresh ty v) limit →
        (r.nodeWith new outer name v t).overrun = false
  | .leaf l, outer, name, _, t, _, _, _ => by
      simp only [Reader.nodeWith, Reading.overrun_map]
      exact ends_sequential.leaf name l t
  | .signature g, outer, name, _, t, _, _, _ => by
      simp only [Reader.nodeWith, Reading.overrun_map]
      exact ends_sequential.signature name g t
  | .optional inner held, outer, name, _, t, h, hpool, affords => by
      obtain ⟨rfl, hheld⟩ := h.of_optional
      obtain ⟨mem, hinner, hvalue⟩ := Value.spelt_optional_subset hpool
      have less := (shrinks_sequential.presence name (outer + 1)).names_subset t
      simp only [Reader.nodeWith, Reading.overrun_bind]
      refine ⟨ends_sequential.presence name (outer + 1) t, ?_⟩
      by_cases present : (presence name (outer + 1) t).value = true
      · simp only [present, if_true, Reading.overrun_bind]
        refine ⟨rfl, heldWith c held hheld hvalue (fun w hw => ?_) fun _ => c.create hinner ?_⟩
        · refine (affords.left less).step (.inl rfl) fun fresh => ?_
          cases hw.symm.trans (Value.optional.inj fresh.of_optional).2
        · rcases presence_cases present with fewer | ⟨rest, below⟩
          · obtain ⟨k, pays⟩ := affords.pays
            obtain ⟨l, hl, pays⟩ := pays.taken less fewer
            exact ⟨l, hl, (pays name).mono Schema.ahead_le_length⟩
          · have inferred := affords.inferred c.fleeting mem below
            rwa [← rest] at inferred
      · simp only [present]
        rfl
  | .array items, outer, name, _, t, .array _ h, hpool, affords => by
      obtain ⟨k, pays⟩ := affords.pays
      simp only [Value.spelt] at hpool
      rw [nodeWith_array, elements_all, Reading.overrun_map]
      exact itemsWith c items h hpool fun j => pays.longer (Name.length_lt_index name j)
  | .seq elem max items, outer, name, _, t, .seq _ h, hpool, affords => by
      obtain ⟨k, pays⟩ := affords.pays
      obtain ⟨helem, hitems⟩ := List.append_subset.mp (by simpa only [Value.spelt] using hpool)
      refine c.seq helem h pays fun n t' less => itemsWith c items h hitems fun j => ?_
      exact (pays.longer (Name.length_lt_index name j)).left less
  | .struct name fields, outer, m, _, t, .struct hd h, hpool, affords => by
      simp only [Value.spelt] at hpool
      rw [nodeWith_struct, Reading.overrun_map]
      refine fieldsWith c fields h hpool (fun f hf hn => .field hd hf hn)
        (affords.imp fun fresh => ?_)
      obtain ⟨vs, same, fresh⟩ := fresh.of_struct hd
      cases same
      exact fresh
  | .union ty tag arm, outer, name, _, t, h, hpool, affords => by
      obtain ⟨rfl, u, d, hu, rfl, -, harm⟩ := h.of_union
      have hvalue := Value.spelt_union_subset hpool
      rw [nodeWith_union hu, Reading.lineOf_bind, Reading.overrun_bind]
      refine ⟨ends_sequential.settle u _ d t, ?_⟩
      have less := (shrinks_sequential.settle (r := r) u (Name.child name u.tag) d).names_subset t
      generalize hout : r.settle u (Name.child name u.tag) d t = out at less
      cases ha : u.arm? out.value with
      | none =>
          simp only [armWith, ha]
          rfl
      | some field? =>
          cases field? with
          | none =>
              simp only [armWith, ha]
              rfl
          | some field =>
              rw [armWith_some ha]
              by_cases same : out.value = d
              · subst same
                rw [if_pos rfl]
                refine heldWith c arm (fun w hw => harm.of_value ha hw) hvalue (fun w hw => ?_) ?_
                · subst hw
                  exact (affords.left less).arm hu ha
                · rintro rfl
                  rw [ha] at harm
                  cases harm
              · rw [if_neg same, Reader.heldWith]
                refine c.create (List.Subset.trans (Schema.spelt_field ?_) c.spelt) ?_
                · exact Schema.mem_fields_of_union? hu ha
                · subst hout
                  obtain ⟨k, pays⟩ := affords.pays
                  obtain ⟨l, hl, pays⟩ := pays.taken less (size_lt_of_settle same)
                  exact ⟨l, hl, (pays _).mono Schema.ahead_le_length⟩

/-- What an optional or a union holds is read by a walk that ends, and so is what is created for
it. -/
theorem heldWith (c : r.Ends new pool longest limit) :
    ∀ (held : Option Value) {outer : Nat} {name : String} {ty : Ty} {place : Option Value → Value}
      {otherwise : Reading Value} {t : Table}, (∀ v, held = some v → r.schema.Shaped ty v) →
      (∀ v, held = some v → v.spelt ⊆ pool) →
      (∀ v, held = some v → r.schema.Affords pool longest t name ty (r.schema.Fresh ty v) limit) →
      (held = none → (otherwise t).overrun = false) →
        (r.heldWith new outer name place otherwise held t).overrun = false
  | none, _, _, _, _, _, _, _, _, _, h => by
      simp only [Reader.heldWith]
      exact h rfl
  | some v, _, _, _, _, _, _, hv, hpool, affords, _ => by
      simp only [Reader.heldWith, Reading.overrun_map]
      exact nodeWith c v (hv v rfl) (hpool v rfl) (affords v rfl)

/-- Elements are read by walks that end, as the table pays for each index. -/
theorem itemsWith (c : r.Ends new pool longest limit) :
    ∀ (vs : List Value) {name : String} {elem : Ty} {i n : Nat} {t : Table},
      (∀ v ∈ vs, r.schema.Shaped elem v) → Value.itemsSpelt vs ⊆ pool →
      (∀ j, t.Pays longest pool.length (Name.index name j) pool.length limit) →
        (r.itemsWith new name i n vs t).overrun = false
  | [], _, _, _, n, _, _, _, _ => by
      rw [itemsWith_nil]
      rfl
  | _ :: _, _, _, _, 0, _, _, _, _ => by
      simp only [Reader.itemsWith]
      rfl
  | v :: vs, name, elem, i, n + 1, t, h, hpool, pays => by
      obtain ⟨first, rest⟩ := List.forall_mem_cons.mp h
      simp only [Value.itemsSpelt, List.append_subset] at hpool
      have less : (r.nodeWith new 0 (Name.index name i) v t).rest.names ⊆ t.names :=
        (nodeWith_shrinks c.sound c.shrinks first).names_subset t
      simp only [Reader.itemsWith, Reading.overrun_bind]
      refine ⟨nodeWith c v first hpool.1 (.inl (pays i)), ?_, rfl⟩
      exact itemsWith c vs rest hpool.2 fun j => (pays j).left less

/-- Fields are read by walks that end, also those that go by the name of the struct itself. -/
theorem fieldsWith (c : r.Ends new pool longest limit) :
    ∀ (vs : List (String × Value)) {name : String} {fs : List Field} {ty : Ty} {t : Table},
      r.schema.TypedFields (fun _ _ => True) fs vs → Value.fieldsSpelt vs ⊆ pool →
      (∀ f ∈ fs, Name.child name f.name = name → r.schema.Lingers name ty f.ty) →
      r.schema.Affords pool longest t name ty (r.schema.FreshFields fs vs) limit →
        (r.fieldsWith new name vs t).overrun = false
  | [], _, _, _, _, .nil, _, _, _ => by
      simp only [Reader.fieldsWith]
      rfl
  | (_, v) :: vs, name, f :: fs, ty, t, .cons h hvs, hpool, lingers, affords => by
      simp only [Value.fieldsSpelt, List.append_subset] at hpool
      obtain ⟨lingersFirst, lingersRest⟩ := List.forall_mem_cons.mp lingers
      have parts (fresh : r.schema.FreshFields (f :: fs) ((f.name, v) :: vs)) :
          r.schema.Fresh f.ty v ∧ r.schema.FreshFields fs vs := by
        obtain ⟨w, ws, same, fresh⟩ := fresh.of_cons
        cases same
        exact fresh
      have less : (r.nodeWith new 0 (Name.child name f.name) v t).rest.names ⊆ t.names :=
        (nodeWith_shrinks c.sound c.shrinks h).names_subset t
      simp only [Reader.fieldsWith, Reading.overrun_bind]
      refine ⟨nodeWith c v h hpool.1 ?_, fieldsWith c vs hvs hpool.2 lingersRest ?_, rfl⟩
      · exact affords.step (Name.child_eq_or_longer name f.name) fun fresh =>
          ⟨(parts fresh).1, lingersFirst⟩
      · exact (affords.left less).imp fun fresh => (parts fresh).2

end

/-- Where no type lingers in itself, the walk ends if new nodes may be nested as deeply as the table
pays for. -/
theorem node (sound : r.schema.Sound) (spelt : r.schema.spelt ⊆ pool)
    (finite : ∀ ty, ¬ r.schema.Endless ty)
    (fleeting : r.schema.Fleeting) (limit : Nat)
    {outer : Nat} {name : String} {ty : Ty} {v : Value} {t : Table} (h : r.schema.Shaped ty v)
    (hv : v.spelt ⊆ pool)
    (affords : r.schema.Affords pool longest t name ty (r.schema.Fresh ty v) limit) :
    (r.node limit outer name v t).overrun = false := by
  induction limit generalizing outer name ty v t with
  | zero =>
      have c : r.Ends (r.newer 0) pool longest 0 :=
        ⟨sound, spelt, finite, fleeting, newer_shrinks sound 0, nofun⟩
      exact c.nodeWith v h hv affords
  | succ limit ih =>
      have c : r.Ends (r.newer (limit + 1)) pool longest (limit + 1) := by
        refine ⟨sound, spelt, finite, fleeting, newer_shrinks sound (limit + 1), ?_⟩
        rintro _ ⟨⟩ outer name ty v t hv hty pays
        have shaped := Schema.initial_shaped sound hv
        exact ih shaped (shaped.spelt_subset spelt hty) (.inr ⟨Schema.fresh_initial hv, pays⟩)
      exact c.nodeWith v h hv affords

end Ends

end Reader

namespace Schema
variable {s : Schema}

/-- The limit of a schema is as much as the table of a document can pay for. -/
theorem pays_nestingLimit {t : Table} {v : Value} {limit : Nat} (h : s.nestingLimit t v ≤ limit)
    (name : String) :
    t.Pays (t.names.foldr (fun n k => max n.length k) 0) (s.spelt ++ v.spelt).length name
      (s.spelt ++ v.spelt).length limit := by
  have rows : ∀ {ns : List String} {n : String}, n ∈ ns →
      n.length ≤ ns.foldr (fun n k => max n.length k) 0 := by
    intro ns n hn
    induction ns with
    | nil => cases hn
    | cons m ns ih =>
        rcases List.mem_cons.mp hn with rfl | hn
        · exact Nat.le_max_left _ _
        · exact Nat.le_trans (ih hn) (Nat.le_max_right _ _)
  refine ⟨fun n hn => rows hn, Nat.le_trans ?_ h⟩
  rw [nestingLimit, List.length_append, length_spelt, v.length_spelt, Table.cost]
  generalize t.names.foldr (fun n k => max n.length k) 0 = longest
  generalize s.optionals + v.optionals = pool
  have row : (longest + 1) * pool + 1 ≤ (longest + 2) * (pool + 1) := by
    rw [Nat.mul_succ, Nat.succ_mul (longest + 1)]
    omega
  have root : (if name.length ≤ longest then (longest - name.length) * pool + pool else 0) ≤
      (longest + 1) * pool + 1 := by
    split
    · rw [← Nat.succ_mul]
      exact Nat.le_succ_of_le (Nat.mul_le_mul_right pool (by omega))
    · exact Nat.zero_le _
  calc t.size * ((longest + 1) * pool + 1) + _
      ≤ t.size * ((longest + 1) * pool + 1) + ((longest + 1) * pool + 1) :=
        Nat.add_le_add_left root _
    _ = (t.size + 1) * ((longest + 1) * pool + 1) := (Nat.succ_mul _ _).symm
    _ ≤ (t.size + 1) * ((longest + 2) * (pool + 1)) := Nat.mul_le_mul_left _ row
    _ = (t.size + 1) * (longest + 2) * (pool + 1) := (Nat.mul_assoc _ _ _).symm

/-- Where no type lingers in itself, reading comes to an end. -/
theorem complete_of_fleeting (sound : s.Sound) (finite : ∀ ty, ¬ s.Endless ty)
    (fleeting : s.Fleeting) {ty : Ty} {v : Value}
    (h : s.HasType ty v) {limit : Nat} {native name doc : String}
    (enough : s.nestingLimit (Document.table doc) v ≤ limit) :
    (s.readWithin limit native name doc v).complete = true := by
  have ends : (Reader.node ⟨s, native⟩ limit 0 name v (Document.table doc)).overrun = false :=
    Reader.Ends.node sound (List.subset_append_left _ _) finite fleeting limit h.shaped
      (List.subset_append_right _ _) (.inl (pays_nestingLimit enough name))
  simp [readWithin, ends]

end Schema

end XdrText
