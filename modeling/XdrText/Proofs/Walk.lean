import XdrText.Proofs.Judgement

/-!
# XdrText — the walk over a tree

The walk is put together from judgements, from looks at the table and from new nodes.  A sequence is
its length, and then its elements, old ones before new ones (`Reader.nodeWith_seq`); a union is its
tag, and then the arm that the tag selects (`Reader.nodeWith_union`).

**Compositional properties** (`Reader.Compositional`).  A property of steps that passes to their
sequence, and holds of judgements and of looks at the table, holds of leaves and of the structure of
a tree (`Reader.Sequential`).  A property that holds of these, and of giving up, holds of the walk
over every tree that is shaped like a type (`Reader.Stepwise.node`), so the compositional ones do.
A walk finds no type without an initial value where all types are declared
(`Schema.declares_closed`).
-/

namespace XdrText
open Key

namespace Reader

/-- How new nodes are read where they may be nested in one another at most `limit` times. -/
def newer (r : Reader) : (limit : Nat) → NodeReader
  | 0 => fun _ _ v => Reading.giveUp v
  | limit + 1 => r.node limit

/-- The walk over a node reads new nodes with what is left of the limit. -/
theorem node_eq (r : Reader) (limit : Nat) : r.node limit = r.nodeWith (r.newer limit) := by
  cases limit <;> rfl

section
variable {r : Reader} {new : NodeReader} {name : String}

/-- Reads the first `n` of the elements that are there, of which the first has index `i`, and then
new ones. -/
def elements (r : Reader) (new : NodeReader) (name : String) (i n : Nat) (olds more : List Value) :
    Reading (List Value) := do
  let kept ← r.itemsWith new name i n olds
  let more ← newItems new name (i + olds.length) more
  return kept ++ more

/-- Where there are no elements, none are read. -/
theorem itemsWith_nil (i n : Nat) : r.itemsWith new name i n [] = pure [] := by
  cases n <;> simp [itemsWith]

theorem elements_zero (i : Nat) (olds : List Value) :
    r.elements new name i 0 olds [] = pure [] := by
  have kept : r.itemsWith new name i 0 olds = pure [] := by cases olds <;> simp [itemsWith]
  simp [elements, kept, newItems]

/-- The next of the elements that are there is read in its place. -/
theorem elements_old (i n : Nat) (o : Value) (olds more : List Value) :
    r.elements new name i (n + 1) (o :: olds) more = (do
      let v ← r.nodeWith new 0 (Name.index name i) o
      let vs ← r.elements new name (i + 1) n olds more
      return v :: vs) := by
  have next : i + (olds.length + 1) = i + 1 + olds.length := by omega
  simp [elements, itemsWith, next]

/-- Behind the elements that are there, new ones are read. -/
theorem elements_new (i n : Nat) (o : Value) (more : List Value) :
    r.elements new name i (n + 1) [] (o :: more) = (do
      let v ← new 0 (Name.index name i) o
      let vs ← r.elements new name (i + 1) n [] more
      return v :: vs) := by
  simp [elements, itemsWith_nil, newItems]

/-- Where nothing is new, the elements are those that are there. -/
theorem elements_all (i n : Nat) (olds : List Value) :
    r.elements new name i n olds [] = r.itemsWith new name i n olds := by
  simp [elements, newItems]

end

/-- A sequence grows by initial values of its elements. -/
theorem grow_eq {r : Reader} {elem : Ty} {v : Value} (line lacking : Nat)
    (h : lacking ≠ 0 → r.schema.initial elem = .ok v) :
    r.grow elem line lacking = pure (List.replicate lacking v) := by
  rw [grow]
  by_cases hz : lacking = 0
  · simp [hz]
  · simp [hz, h hz]

/-- Where a type has an initial value, a new node is that value, read. -/
theorem create_eq {r : Reader} {new : NodeReader} {outer : Nat} {name : String} {ty : Ty}
    {line : Nat} {place : Option Value → Value} {old v : Value} (h : r.schema.initial ty = .ok v) :
    r.create new outer name ty line place old = (fun v => place (some v)) <$> new outer name v := by
  simp only [create, h]

/-- An array has no new elements. -/
theorem nodeWith_array {r : Reader} {new : NodeReader} {outer : Nat} {name : String}
    {items : List Value} : r.nodeWith new outer name (.array items) =
      Value.array <$> r.elements new name 0 items.length items [] := by
  simp [nodeWith, elements_all]

theorem nodeWith_struct {r : Reader} {new : NodeReader} {outer : Nat} {name ty : String}
    {fields : List (String × Value)} : r.nodeWith new outer name (.struct ty fields) =
      Value.struct ty <$> r.fieldsWith new name fields := by
  simp [nodeWith]

/-- A sequence takes its length, grows where elements are lacking, and reads them. -/
theorem node_seq {r : Reader} {limit outer : Nat} {name : String} {elem : Ty} {max : UInt32}
    {items : List Value} : r.node limit outer name (.seq elem max items) =
      Reader.length name max.toNat items.length >>= fun p =>
        r.grow elem p.1 (p.2 - items.length) >>= fun more =>
          Value.seq elem max <$> r.elements (r.newer limit) name 0 p.2 items more := by
  simp [node_eq, nodeWith, elements]

/-- A sequence is judged by its length, and its elements are read. -/
theorem nodeWith_seq {r : Reader} {new : NodeReader} {outer : Nat} {name : String} {elem : Ty}
    {max : UInt32} {items : List Value} :
    r.nodeWith new outer name (.seq elem max items) = (do
      let line ← Reading.lineOf (Name.length name)
      let n ← Reading.judge? (Name.length name)
          (countRule (Name.length name) max.toNat) items.length
      let more ← r.grow elem line (n.getD 0 - items.length)
      Value.seq elem max <$> r.elements new name 0 (n.getD 0) items more) := by
  refine Eq.trans ?_ (length_eq_judge r name elem max.toNat items.length fun n more =>
    Value.seq elem max <$> r.elements new name 0 n items more)
  simp [nodeWith, elements]

/-- What follows the tag of a union, where `old` was the tag and `tag` is: a new arm where the tag
has changed, and else what is there. -/
def armWith (r : Reader) (new : NodeReader) (name ty : String) (u : ResolvedUnion)
    (old tag : Int32) (line : Nat) (arm : Option Value) : Reading Value :=
  match u.arm? tag with
  | none => return .union ty (.leaf (u.tagType.leaf tag)) arm
  | some none => return .union ty (.leaf (u.tagType.leaf tag)) none
  | some (some field) =>
    let fresh := r.create new 0 (u.armName name field) field.ty line
      (.union ty (.leaf (u.tagType.leaf tag))) (.union ty (.leaf (u.tagType.leaf old)) arm)
    if tag ≠ old then fresh
    else r.heldWith new 0 (u.armName name field) (.union ty (.leaf (u.tagType.leaf tag))) fresh arm

/-- What an arm of another tag holds is not read. -/
theorem armWith_some {r : Reader} {new : NodeReader} {name ty : String} {u : ResolvedUnion}
    {old tag : Int32} {line : Nat} {arm : Option Value} {field : Field}
    (h : u.arm? tag = some (some field)) :
    r.armWith new name ty u old tag line arm =
      r.heldWith new 0 (u.armName name field) (.union ty (.leaf (u.tagType.leaf tag)))
        (r.create new 0 (u.armName name field) field.ty line
          (.union ty (.leaf (u.tagType.leaf tag))) (.union ty (.leaf (u.tagType.leaf old)) arm))
        (if tag = old then arm else none) := by
  by_cases same : tag = old
  · subst same
    simp [armWith, h]
  · simp [armWith, h, same, heldWith]

/-- A union is judged by its tag, and the arm that it selects is read. -/
theorem nodeWith_union {r : Reader} {new : NodeReader} {outer : Nat} {name ty : String}
    {u : ResolvedUnion} {old : Int32} {arm : Option Value} (hu : r.schema.union? ty = some u) :
    r.nodeWith new outer name (.union ty (.leaf (u.tagType.leaf old)) arm) = (do
      let line ← Reading.lineOf (Name.child name u.tag)
      let tag ← r.settle u (Name.child name u.tag) old
      r.armWith new name ty u old tag line arm) := by
  -- the walk after the tag, by the tag that is settled on and whether it changed
  have settled := settle_eq_judge r (Name.child name u.tag) u old fun line tag changed =>
    match tag.discriminant?.bind u.arm? with
    | none => return .union ty tag arm
    | some none => return .union ty tag none
    | some (some field) =>
      let fresh := r.create new 0 (u.armName name field) field.ty line (.union ty tag)
        (.union ty (.leaf (u.tagType.leaf old)) arm)
      if changed then fresh else r.heldWith new 0 (u.armName name field) (.union ty tag) fresh arm
  simp only [nodeWith, hu]
  refine settled.trans ?_
  simp [armWith]

end Reader

/-! ### Kinds of types -/

namespace Schema
variable {s : Schema}

/-- All types that a type names are declared. -/
def Declares (s : Schema) : Ty → Prop
  | .enum name => (s.enum? name).isSome
  | .struct name => (s.struct? name).isSome
  | .union name => (s.union? name).isSome
  | .optional ty | .array ty _ | .seq ty _ => s.Declares ty
  | _ => True

/-- A kind of types passes to the types inside a type, and all fields of the schema are of the
kind. -/
structure Closed (s : Schema) (kind : Ty → Prop) : Prop where
  inner : ∀ ty, kind (.optional ty) → kind ty
  elem : ∀ ty n, kind (.array ty n) → kind ty
  item : ∀ ty max, kind (.seq ty max) → kind ty
  field : ∀ f ∈ s.fields, kind f.ty

theorem closed_all : s.Closed fun _ => True :=
  ⟨fun _ _ => trivial, fun _ _ _ => trivial, fun _ _ _ => trivial, fun _ _ => trivial⟩

/-- What is declared supplies an initial value. -/
theorem Declares.supplies {ty : Ty} (h : s.Declares ty) : s.Supplies ty := by
  induction ty with
  | array _ _ ih => exact .inr (ih h)
  | «enum» | struct | union => exact h
  | _ => exact trivial

end Schema

namespace Definitions
variable {d : Definitions} {s : Schema}

/-- A type that passes the check has all its types declared. -/
theorem declares_of_checkTy (h : d.resolve = .ok s) {ty : Ty} (hc : d.checkTy ty = .ok ()) :
    s.Declares ty := by
  induction ty with
  | optional _ ih | array _ _ ih | seq _ _ ih => exact ih hc
  | «enum» | struct | union => exact supplies_of_checkTy h hc
  | _ => exact trivial

/-- The fields of a resolved schema have declared types. -/
theorem declares_closed (h : d.resolve = .ok s) : s.Closed s.Declares where
  inner _ := id
  elem _ _ := id
  item _ _ := id
  field f hf := by
    obtain ⟨-, structs, checked, -, unions⟩ := resolve_ok h
    rcases List.mem_append.mp hf with hf | hf
    · obtain ⟨t, ht, hf⟩ := List.mem_flatMap.mp hf
      exact declares_of_checkTy h ((checkFields_eq_ok.mp (checked t (structs ▸ ht))).2.2 f hf)
    · obtain ⟨r, hr, hf⟩ := List.mem_flatMap.mp hf
      obtain ⟨u, -, hres⟩ := unions r hr
      obtain ⟨-, -, ha, ho, -⟩ := resolveUnion_ok hres
      exact declares_of_checkTy h (checkTy_of_mem_fields ha ho hf)

end Definitions

/-! ### Compositional properties -/

namespace Reader

/-- A property of steps that passes to their sequence and holds of judgements and of looks at the
table. -/
structure Sequential (P : ∀ {α : Type}, Reading α → Prop) : Prop where
  pure {α : Type} (a : α) : P (Pure.pure a : Reading α)
  bind {α β : Type} {x : Reading α} {f : α → Reading β} (hx : P x) (hf : ∀ t, P (f (x t).value)) :
    P (x >>= f)
  judge? {α : Type} (name : String) {rule : Rule α} (fair : rule.Fair) (old : α) :
    P (Reading.judge? name rule old)
  mentions (name : String) : P (Reading.look fun t => Table.mentions t name)
  lineOf (name : String) : P (Reading.lineOf name)
  discard (name : String) : P (Reading.discard name)

/-- The property holds of all that the walk is put together from, where new nodes are of a kind of
types. -/
structure Compositional (r : Reader) (kind : Ty → Prop) (P : ∀ {α : Type}, Reading α → Prop) : Prop
    extends Sequential P where
  giveUp {α : Type} (a : α) : P (Reading.giveUp a)
  unmade {ty : Ty} (line : Nat) {f : SchemaFault} (ht : kind ty)
    (h : r.schema.initial ty = .error f) (ne : f ≠ .endlessType) :
    P (Reading.report line (.misplaced (.noInitial f)))

/-- The property passes from step to step, and holds of the steps that the nodes of a tree take,
where new nodes are of a kind of types. -/
structure Stepwise (r : Reader) (kind : Ty → Prop) (P : ∀ {α : Type}, Reading α → Prop) : Prop where
  pure {α : Type} (a : α) : P (Pure.pure a : Reading α)
  bind {α β : Type} {x : Reading α} {f : α → Reading β} (hx : P x) (hf : ∀ t, P (f (x t).value)) :
    P (x >>= f)
  leaf (name : String) (l : Leaf) : P (r.leaf name l)
  signature (name : String) (g : Signature) : P (Reader.signature name g)
  presence (name : String) (depth : Nat) : P (Reader.presence name depth)
  count (name : String) (max old : Nat) : P (Reading.judge? name (countRule name max) old)
  settle (u : ResolvedUnion) (name : String) (old : Int32) : P (r.settle u name old)
  lineOf (name : String) : P (Reading.lineOf name)
  giveUp {α : Type} (a : α) : P (Reading.giveUp a)
  unmade {ty : Ty} (line : Nat) {f : SchemaFault} (ht : kind ty)
    (h : r.schema.initial ty = .error f) (ne : f ≠ .endlessType) :
    P (Reading.report line (.misplaced (.noInitial f)))

/-! Parts of a node -/

namespace Sequential
variable {r : Reader} {P : ∀ {α : Type}, Reading α → Prop} {α β : Type}

/-- What is made of the value of a step does not matter. -/
theorem map (c : Sequential P) {x : Reading α} (f : α → β) (hx : P x) : P (f <$> x) := by
  rw [map_eq_pure_bind]
  exact c.bind hx fun _ => c.pure _

theorem judge (c : Sequential P) (name : String) {rule : Rule α} (fair : rule.Fair) (old : α) :
    P (Reading.judge name rule old) :=
  c.map _ (c.judge? name fair old)

/-- A leaf is read by one judgement, or stays. -/
theorem plainLeaf (c : Sequential P) (name : String) (l : Leaf) : P (r.plainLeaf name l) := by
  rw [plainLeaf_eq_judge]
  cases r.leafParser? l with
  | none => exact c.pure l
  | some _ => exact c.judge name leafRule_fair l

/-- A bare source key is read under its short name, and else under its own. -/
theorem leaf (c : Sequential P) (name : String) (l : Leaf) : P (r.leaf name l) := by
  simp only [Reader.leaf]
  cases l.bareSource? name with
  | none => exact c.plainLeaf name l
  | some p =>
      simp only [bareSource_eq_judge]
      refine c.bind (c.judge? _ sourceRule_fair l) fun t => ?_
      cases (Reading.judge? p.1 sourceRule l t).value with
      | none => exact c.plainLeaf name l
      | some l' => exact c.bind (c.discard name) fun _ => c.pure l'

/-- A signature is read by two judgements, one for its hint and one for its body. -/
theorem signature (c : Sequential P) (name : String) (g : Signature) :
    P (Reader.signature name g) := by
  rw [signature_eq_judge]
  refine c.bind (c.judge _ hintRule_fair g.hint) fun _ => ?_
  exact c.bind (c.judge _ bodyRule_fair g.body) fun _ => c.pure _

/-- The presence of an optional is a judgement, or else a look at the table. -/
theorem presence (c : Sequential P) (name : String) (depth : Nat) :
    P (Reader.presence name depth) := by
  rw [presence_eq_judge]
  refine c.bind (c.judge _ presenceRule_fair none) fun t => ?_
  cases (Reading.judge (Name.presence name depth) (presenceRule (Name.presence name depth)) none
    t).value with
  | none => exact c.mentions name
  | some present => exact c.pure present

/-- The tag of a union is settled by a judgement. -/
theorem settle (c : Sequential P) (u : ResolvedUnion) (name : String) (old : Int32) :
    P (r.settle u name old) := by
  rw [Reader.settle]
  cases r.tagParser? u.tagType with
  | none => exact c.pure old
  | some _ => exact c.judge name tagRule_fair old

end Sequential

namespace Stepwise
variable {r : Reader} {kind : Ty → Prop} {P : ∀ {α : Type}, Reading α → Prop}

/-- What is made of the value of a step does not matter. -/
theorem map (c : r.Stepwise kind P) {α β : Type} {x : Reading α} (f : α → β) (hx : P x) :
    P (f <$> x) := by
  rw [map_eq_pure_bind]
  exact c.bind hx fun _ => c.pure _

/-- Making elements reads nothing, but it can find that there is no initial value. -/
theorem grow (c : r.Stepwise kind P) {elem : Ty} (helem : kind elem) (line lacking : Nat) :
    P (r.grow elem line lacking) := by
  rw [Reader.grow]
  split
  · exact c.pure []
  · split
    · exact c.pure _
    · exact c.giveUp []
    next f ne hf => exact c.bind (c.unmade line helem hf ne) fun _ => c.pure []

section
variable {new : NodeReader}

/-- A new node is read, or the walk gives up. -/
theorem create (c : r.Stepwise kind P) (sound : r.schema.Sound)
    (hnew : ∀ outer name ty v, kind ty → r.schema.Shaped ty v → P (new outer name v)) {ty : Ty}
    (ht : kind ty) {outer : Nat} {name : String} {line : Nat} {place : Option Value → Value}
    {old : Value} : P (r.create new outer name ty line place old) := by
  rw [Reader.create]
  split
  next v hv => exact c.map _ (hnew outer name ty v ht (Schema.initial_shaped sound hv))
  next => exact c.giveUp old
  next f ne hf => exact c.bind (c.unmade line ht hf ne) fun _ => c.pure _

/-- New elements are read one after the other. -/
theorem newItems (c : r.Stepwise kind P)
    (hnew : ∀ outer name ty v, kind ty → r.schema.Shaped ty v → P (new outer name v)) {elem : Ty}
    (helem : kind elem) {name : String} {vs : List Value} :
    ∀ {i : Nat}, (∀ v ∈ vs, r.schema.Shaped elem v) → P (Reader.newItems new name i vs) := by
  induction vs with
  | nil => exact fun _ => c.pure []
  | cons v vs ih =>
      intro i h
      simp only [Reader.newItems]
      refine c.bind (hnew _ _ elem v helem (h v List.mem_cons_self)) fun _ => ?_
      exact c.bind (ih fun w hw => h w (List.mem_cons_of_mem _ hw)) fun _ => c.pure _

mutual

/-- The walk over a tree that is shaped like a type, by recursion on the tree. -/
theorem nodeWith (c : r.Stepwise kind P) (sound : r.schema.Sound) (closed : r.schema.Closed kind)
    (hnew : ∀ outer name ty v, kind ty → r.schema.Shaped ty v → P (new outer name v)) :
    ∀ (v : Value) {outer : Nat} {name : String} {ty : Ty}, kind ty → r.schema.Shaped ty v →
      P (r.nodeWith new outer name v)
  | .leaf l, outer, name, _, _, _ => by
      simp only [Reader.nodeWith]
      exact c.map _ (c.leaf name l)
  | .signature g, outer, name, _, _, _ => by
      simp only [Reader.nodeWith]
      exact c.map _ (c.signature name g)
  | .optional inner held, outer, name, _, ht, h => by
      obtain ⟨rfl, hheld⟩ := h.of_optional
      have hinner := closed.inner inner ht
      simp only [Reader.nodeWith]
      refine c.bind (c.presence name (outer + 1)) fun t => ?_
      split
      · refine c.bind (c.lineOf name) fun _ => ?_
        exact heldWith c sound closed hnew held hinner hheld (c.create sound hnew hinner)
      · exact c.pure _
  | .array items, outer, name, _, ht, .array _ h => by
      simp only [Reader.nodeWith]
      exact c.bind (itemsWith c sound closed hnew items (closed.elem _ _ ht) h) fun _ => c.pure _
  | .seq elem max items, outer, name, _, ht, .seq _ h => by
      have helem := closed.item elem max ht
      rw [nodeWith_seq]
      refine c.bind (c.lineOf _) fun _ => c.bind (c.count _ _ _) fun _ => ?_
      refine c.bind (c.grow helem _ _) fun t => c.map _ ?_
      -- the elements that are there, and new ones
      refine c.bind (itemsWith c sound closed hnew items helem h) fun _ => ?_
      refine c.bind (c.newItems hnew helem ?_) fun _ => c.pure _
      exact (grow_ensures (fun v => Schema.initial_shaped sound) t).2
  | .struct _ fields, outer, name, _, _, .struct hd h => by
      simp only [Reader.nodeWith]
      exact c.bind (fieldsWith c sound closed hnew fields h fun f hf =>
        closed.field f (Schema.mem_fields_of_struct? hd hf)) fun _ => c.pure _
  | .union ty tag arm, outer, name, _, _, h => by
      obtain ⟨-, u, d, hu, rfl, -, harm⟩ := h.of_union
      rw [nodeWith_union hu]
      refine c.bind (c.lineOf _) fun _ => c.bind (c.settle u _ d) fun t => ?_
      generalize (r.settle u (Name.child name u.tag) d t).value = e
      rw [armWith]
      split
      · exact c.pure _
      · exact c.pure _
      next f hf =>
        have hfield := closed.field f (Schema.mem_fields_of_union? hu hf)
        split
        · exact c.create sound hnew hfield
        next same =>
          obtain rfl : e = d := Decidable.not_not.mp same
          exact heldWith c sound closed hnew arm hfield (fun w hw => harm.of_value hf hw)
            (c.create sound hnew hfield)

/-- What is held is read, or what is done otherwise. -/
theorem heldWith (c : r.Stepwise kind P) (sound : r.schema.Sound) (closed : r.schema.Closed kind)
    (hnew : ∀ outer name ty v, kind ty → r.schema.Shaped ty v → P (new outer name v)) :
    ∀ (held : Option Value) {outer : Nat} {name : String} {ty : Ty} {place : Option Value → Value}
      {otherwise : Reading Value}, kind ty → (∀ v, held = some v → r.schema.Shaped ty v) →
      P otherwise → P (r.heldWith new outer name place otherwise held)
  | none, _, _, _, _, _, _, _, h => by
      simp only [Reader.heldWith]
      exact h
  | some v, _, _, _, _, _, ht, hv, _ => by
      simp only [Reader.heldWith]
      exact c.map _ (nodeWith c sound closed hnew v ht (hv v rfl))

/-- The elements that are there are read one after the other. -/
theorem itemsWith (c : r.Stepwise kind P) (sound : r.schema.Sound)
    (closed : r.schema.Closed kind)
    (hnew : ∀ outer name ty v, kind ty → r.schema.Shaped ty v → P (new outer name v)) :
    ∀ (vs : List Value) {name : String} {elem : Ty} {i n : Nat}, kind elem →
      (∀ v ∈ vs, r.schema.Shaped elem v) → P (r.itemsWith new name i n vs)
  | [], _, _, _, n, _, _ => by
      rw [itemsWith_nil]
      exact c.pure []
  | _ :: _, _, _, _, 0, _, _ => by
      simp only [Reader.itemsWith]
      exact c.pure []
  | v :: vs, _, _, _, n + 1, ht, h => by
      simp only [Reader.itemsWith]
      refine c.bind (nodeWith c sound closed hnew v ht (h v List.mem_cons_self)) fun _ => ?_
      exact c.bind (itemsWith c sound closed hnew vs ht fun w hw => h w (List.mem_cons_of_mem _ hw))
        fun _ => c.pure _

/-- Fields are read one after the other, in the order of declaration. -/
theorem fieldsWith (c : r.Stepwise kind P) (sound : r.schema.Sound)
    (closed : r.schema.Closed kind)
    (hnew : ∀ outer name ty v, kind ty → r.schema.Shaped ty v → P (new outer name v)) :
    ∀ (vs : List (String × Value)) {name : String} {fs : List Field},
      r.schema.TypedFields (fun _ _ => True) fs vs → (∀ f ∈ fs, kind f.ty) →
        P (r.fieldsWith new name vs)
  | [], _, _, .nil, _ => by
      simp only [Reader.fieldsWith]
      exact c.pure []
  | (_, v) :: vs, _, _, .cons h t, hf => by
      simp only [Reader.fieldsWith]
      refine c.bind (nodeWith c sound closed hnew v (hf _ List.mem_cons_self) h) fun _ => ?_
      exact c.bind (fieldsWith c sound closed hnew vs t fun f hm =>
        hf f (List.mem_cons_of_mem _ hm)) fun _ => c.pure _

end

end

/-- The walk has the property, however deeply new nodes may be nested. -/
theorem node (c : r.Stepwise kind P) (sound : r.schema.Sound) (closed : r.schema.Closed kind)
    (limit : Nat) {outer : Nat} {name : String} {ty : Ty} {v : Value} (ht : kind ty)
    (h : r.schema.Shaped ty v) : P (r.node limit outer name v) := by
  induction limit generalizing outer name ty v with
  | zero => exact c.nodeWith sound closed (fun _ _ _ v _ _ => c.giveUp v) v ht h
  | succ limit ih => exact c.nodeWith sound closed (fun _ _ _ _ => ih) v ht h

end Stepwise

namespace Compositional
variable {r : Reader} {kind : Ty → Prop} {P : ∀ {α : Type}, Reading α → Prop}

/-- A property of all judgements is one of all steps that the nodes take. -/
theorem stepwise (c : r.Compositional kind P) : r.Stepwise kind P where
  pure := c.pure
  bind := c.bind
  leaf := c.leaf
  signature := c.signature
  presence := c.presence
  count name _ := c.judge? name countRule_fair
  settle := c.settle
  lineOf := c.lineOf
  giveUp := c.giveUp
  unmade := c.unmade

/-- Such a property holds of the walk over a whole tree. -/
theorem node (c : r.Compositional kind P) (sound : r.schema.Sound) (closed : r.schema.Closed kind)
    (limit : Nat) {outer : Nat} {name : String} {ty : Ty} {v : Value} (ht : kind ty)
    (h : r.schema.Shaped ty v) : P (r.node limit outer name v) :=
  c.stepwise.node sound closed limit ht h

end Compositional
end Reader
end XdrText
