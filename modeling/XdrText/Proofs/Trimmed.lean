import XdrText.Proofs.EnvelopeText
import XdrText.Proofs.Frame
import XdrText.Proofs.Inference

/-!
# XdrText — documents without redundant lines

**Inference** (`Envelope.read_trimmed`).  From any document that has the lines of an envelope except
for some redundant ones, the envelope is read back, whatever envelope was there before.

The proof walks over the tree that was written.  From any table that retains its lines, reading a
node infers its value (`Writer.node_infers`).  An optional that is there is mentioned by a line of
what it holds.  One that is not there is mentioned by none, since it owns the region below its name.
-/

namespace XdrText
open Key

/-- How deeply the new nodes in a value can be nested in one another, by how deeply they can be
nested in structs and unions. -/
def Ty.nesting (inside : String → Nat) : Ty → Nat
  | .optional inner => inner.nesting inside + 1
  | .array elem _ => elem.nesting inside
  | .seq elem _ => elem.nesting inside + 1
  | .struct name | .union name => inside name
  | _ => 0

/-- Bounds for how deeply new nodes can be nested in the structs and unions of a schema. -/
structure Schema.Nests (s : Schema) (inside : String → Nat) : Prop where
  struct : ∀ d ∈ s.structs, ∀ f ∈ d.fields, f.ty.nesting inside ≤ inside d.name
  union : ∀ u ∈ s.unions, ∀ f ∈ u.fields, f.ty.nesting inside + 1 ≤ inside u.name

instance (s : Schema) (inside : String → Nat) : Decidable (s.Nests inside) :=
  decidable_of_iff
    ((∀ d ∈ s.structs, ∀ f ∈ d.fields, f.ty.nesting inside ≤ inside d.name) ∧
      ∀ u ∈ s.unions, ∀ f ∈ u.fields, f.ty.nesting inside + 1 ≤ inside u.name)
    ⟨fun ⟨struct, union⟩ => ⟨struct, union⟩, fun h => ⟨h.struct, h.union⟩⟩

namespace Writer
open Reader
variable {w : Writer}

/-- A sound schema that tells, in which parts go by different words and no type is endless, and an
annotator that is tame. -/
structure Clear (w : Writer) (inside : String → Nat) : Prop extends Regular w where
  apart : w.schema.Apart
  telling : w.schema.Telling
  nests : w.schema.Nests inside
  ends : ∀ ty, ¬ w.schema.Endless ty

/-- A place for values of a type, whose name is that of no structure. -/
structure Place (w : Writer) (name : String) (ty : Ty) : Prop where
  plain : Name.Plain name
  proper : ¬ Name.Structural name
  sources : w.schema.BareSources name ty
  tells : w.schema.tells ty
  named : ∀ inner, ty = .optional inner → name ≠ ""

/-! ### Places -/

namespace Place
variable {inside : String → Nat} {name : String} {ty : Ty} {i n : Nat}

/-- What an optional holds goes by its name, and is no optional itself. -/
theorem inner (h : w.Place name (.optional ty)) : w.Place name ty where
  plain := h.plain
  proper := h.proper
  sources := h.sources.inner
  tells := by
    have shows : w.schema.shows ty := h.tells
    cases ty <;> first | rfl | cases shows
  named := by
    rintro inner rfl
    have shows : w.schema.shows (.optional inner) := h.tells
    cases shows

theorem elem (h : w.Place name (.array ty n)) (hi : i < n) : w.Place (Name.index name i) ty where
  plain := h.plain.index i
  proper := Name.not_structural_index name i
  sources := h.sources.elem hi
  tells := h.tells
  named _ _ := Name.index_ne_empty name i

/-- The elements of a sequence have places of their own. -/
theorem item {max : UInt32} (h : w.Place name (.seq ty max)) (hi : i < max.toNat) :
    w.Place (Name.index name i) ty where
  plain := h.plain.index i
  proper := Name.not_structural_index name i
  sources := h.sources.item hi
  tells := h.tells
  named _ _ := Name.index_ne_empty name i

/-- A field has a place of its own. -/
theorem child (clear : w.Clear inside) (plain : Name.Plain name) {f : Field}
    (hf : f ∈ w.schema.fields) (sources : w.schema.BareSources (Name.child name f.name) f.ty) :
    w.Place (Name.child name f.name) f.ty :=
  have identifier := clear.identified.field f hf
  { plain := plain.child (Name.plain_of_isIdentifier identifier)
    proper := Name.not_structural_child identifier (clear.telling.field f hf)
    sources
    tells := clear.telling.tells f hf
    named := fun _ _ => Name.child_ne_empty (Name.ne_empty_of_isIdentifier identifier) }

/-- An arm has a place of its own, or that of its union. -/
theorem arm (clear : w.Clear inside) {union : String} {u : ResolvedUnion} {d : Int32} {f : Field}
    (h : w.Place name (.union union)) (hu : w.schema.union? union = some u)
    (ha : u.arm? d = some (some f)) : w.Place (u.armName name f) f.ty := by
  have hf := Schema.mem_fields_of_union? hu ha
  have sources := h.sources.arm hu ha
  by_cases inline : u.inline = true
  · -- an inline arm is no optional
    obtain ⟨words, hwords, -⟩ :=
      clear.apart.beside u (Schema.mem_of_union? hu) f (Schema.mem_fields_of_arm? ha)
    rw [Schema.beside?, if_pos inline] at hwords
    rw [ResolvedUnion.armName, if_pos inline] at sources ⊢
    refine ⟨h.plain, h.proper, sources, clear.telling.tells f hf, fun inner hty => ?_⟩
    rw [hty] at hwords
    cases hwords
  · rw [ResolvedUnion.armName, if_neg inline] at sources ⊢
    exact child clear h.plain hf sources

end Place

/-! ### One node -/

/-- Reading a node into any value shaped like its type infers the node, from a document in which its
region holds no lines but its own. -/
def Inferred (w : Writer) (inside : String → Nat) (doc : List String) (outer : Nat) (name : String)
    (ty : Ty) (v : Value) : Prop :=
  ∀ (limit : Nat) {old : Value}, w.schema.Shaped ty old → ty.nesting inside ≤ limit →
    Owns doc (w.schema.Region name ty) (w.node outer name v).lines →
      (w.reader.node limit outer name old).Infers doc name (w.node outer name v).lines v

/-- Reading elements from index `i` on infers them, whether they are old ones or new. -/
def InferredItems (w : Writer) (inside : String → Nat) (doc : List String) (name : String)
    (elem : Ty) (i : Nat) (vs : List Value) : Prop :=
  ∀ (limit : Nat) {olds more : List Value}, (∀ o ∈ olds, w.schema.Shaped elem o) →
    (∀ o ∈ more, w.schema.Shaped elem o) → more.length = vs.length - olds.length →
    elem.nesting inside ≤ limit → (more ≠ [] → elem.nesting inside < limit) →
    Owns doc (fun n => ∃ j, i ≤ j ∧ Name.Below (Name.index name j) n) (w.items name i vs).lines →
      (w.reader.elements (w.reader.newer limit) name i vs.length olds more).Infers doc name
        (w.items name i vs).lines vs

/-- Reading fields infers them. -/
def InferredFields (w : Writer) (inside : String → Nat) (doc : List String) (name : String)
    (fs : List Field) (vs : List (String × Value)) : Prop :=
  ∀ (limit : Nat) {olds : List (String × Value)},
    w.schema.TypedFields (fun _ _ => True) fs olds → (∀ f ∈ fs, f.ty.nesting inside ≤ limit) →
    Owns doc (fun n => ∃ f ∈ fs, Name.Below (Name.child name f.name) n) (w.fields name vs).lines →
      (w.reader.fieldsWith (w.reader.newer limit) name olds).Infers doc name
        (w.fields name vs).lines vs

section
variable {inside : String → Nat} {doc : List String} {outer : Nat} {name : String}

theorem Clear.named (clear : w.Clear inside) : w.schema.Named :=
  ⟨clear.identified.field, clear.identified.tag⟩

theorem Clear.exists_initial (clear : w.Clear inside) {ty : Ty} (supplied : w.schema.Supplies ty) :
    ∃ o, w.reader.schema.initial ty = .ok o ∧ w.schema.Shaped ty o :=
  Schema.exists_initial clear.sound supplied (clear.ends ty)

namespace Inferred

/-- A leaf is inferred from its line, which is never redundant. -/
protected theorem leaf (clear : w.Clear inside) {l : Leaf} (h : l.Within w.schema.Knows)
    (legible : l.Legible) (place : w.Place name l.ty) :
    w.Inferred inside doc outer name l.ty (.leaf l) := by
  intro limit old hold _ _
  obtain ⟨l', rfl, hty⟩ := hold.exists_leaf
  simp only [node_eq, nodeWith, node]
  exact (Reading.Infers.of_mirrors
    (leaf_mirrors clear.identified clear.tame h hty place.sources) legible
    (leaf_proper h place.proper)).map _

protected theorem signature (clear : w.Clear inside) {g : Signature}
    (h : g.body.length ≤ Signature.maximum) :
    w.Inferred inside doc outer name .signature (.signature g) := by
  intro limit old hold _ _
  obtain ⟨g', rfl⟩ := hold.exists_signature
  have essential : ∀ n ∈ (w.signature name g).lines.map Line.name, ¬ Name.Structural n := by
    rw [signature_names]
    simpa using ⟨Name.not_structural_child (f := "hint") (by decide) (by decide),
      Name.not_structural_child (f := "signature") (by decide) (by decide)⟩
  simp only [node_eq, nodeWith, node]
  exact (Reading.Infers.of_mirrors (signature_mirrors clear.tame h) trivial essential).map _

/-- No row mentions an optional that is not there, apart from that which says so. -/
protected theorem absent {inner : Ty} :
    w.Inferred inside doc outer name (.optional inner) (.optional inner none) := by
  intro limit old hold _ owns
  obtain ⟨held, rfl, -⟩ := hold.exists_optional
  simp only [node, Written.lines_line] at owns ⊢
  simp only [node_eq, nodeWith]
  refine .step (l := ⟨_, "false"⟩) (presence_infers false fun t within _ row => ?_)
    (fun _ => .pure) (by simp)
  exact not_mentions_of_owns within owns (by simpa using row)

/-- What an optional holds mentions it. -/
protected theorem present (clear : w.Clear inside) {inner : Ty} {v : Value}
    (h : w.schema.HasType inner v) (place : w.Place name (.optional inner))
    (within : w.Inferred inside doc (outer + 1) name inner v) :
    w.Inferred inside doc outer name (.optional inner) (.optional inner (some v)) := by
  intro limit old hold hlimit owns
  obtain ⟨held, rfl, hheld⟩ := hold.exists_optional
  have shows : w.schema.shows inner := place.tells
  have typed : w.schema.HasType (.optional inner) (.optional inner (some v)) := .present h
  have apart := (node_tidy clear.named clear.apart _ outer name typed).nodup
  simp only [node, Written.lines_append, Written.lines_line, List.singleton_append, List.map_cons,
    List.nodup_cons] at apart owns ⊢
  simp only [node_eq, nodeWith]
  obtain ⟨n, hn, proper, extends'⟩ := exists_mention clear.named clear.telling (outer + 1) h shows
    (place.named inner rfl) place.proper
  refine .step (l := ⟨_, "true"⟩) (presence_infers true fun t _ retains _ => ?_)
    (fun _ => ?_) apart.1
  · exact mentions_of_retains retains (List.mem_cons_of_mem _ hn) proper extends'
  have region : ∀ n, w.schema.Region name inner n →
      w.schema.Region name (.optional inner) n ∧ n ≠ Name.presence name (outer + 1) :=
    fun _ h => h.inner clear.named shows (outer + 1)
  have own : Owns doc (w.schema.Region name inner) (w.node (outer + 1) name v).lines :=
    owns.tail (fun n h => (region n h).1) fun n h => (region n h).2
  have deep : inner.nesting inside + 1 ≤ limit := hlimit
  refine .lineOf fun line => ?_
  cases held with
  | some o =>
      have reread := within limit (hheld o rfl) (by omega) own
      rw [node_eq] at reread
      simp only [heldWith]
      exact reread.map _
  | none =>
      obtain ⟨limit, rfl⟩ := Nat.exists_eq_add_one_of_ne_zero (show limit ≠ 0 by omega)
      obtain ⟨o, made, shaped⟩ := clear.exists_initial (Schema.HasType.supplies h)
      simp only [heldWith, create_eq made]
      exact (within limit shaped (by omega) own).map _

/-- An array is inferred from its elements. -/
protected theorem array {elem : Ty} {items : List Value}
    (within : w.InferredItems inside doc name elem 0 items) :
    w.Inferred inside doc outer name (.array elem items.length) (.array items) := by
  intro limit old hold hlimit owns
  obtain ⟨olds, rfl, holds, shaped⟩ := hold.exists_array
  simp only [node] at owns ⊢
  rw [node_eq, nodeWith_array, holds]
  refine (within limit shaped (by simp) (by simp [holds]) hlimit (by simp) ?_).map _
  exact fun n hn region => owns n hn (.inr (region.imp fun _ h => h.2))

/-- A sequence that is not empty says how long it is. -/
protected theorem seq (clear : w.Clear inside) {elem : Ty} {max : UInt32} {items : List Value}
    (hn : items.length ≤ max.toNat) (h : ∀ v ∈ items, w.schema.HasType elem v)
    (within : w.InferredItems inside doc name elem 0 items) :
    w.Inferred inside doc outer name (.seq elem max) (.seq elem max items) := by
  intro limit old hold hlimit owns
  obtain ⟨olds, rfl, shaped⟩ := hold.exists_seq
  have apart := (node_tidy clear.named clear.apart (.seq elem max items)
      outer name (.seq hn h)).nodup
  simp only [node, Written.lines_append, Written.lines_line, Written.lines_faultOf,
    List.append_nil, List.singleton_append, List.map_cons, List.nodup_cons] at apart owns ⊢
  have deep : elem.nesting inside + 1 ≤ limit := hlimit
  have supplied : items ≠ [] → w.schema.Supplies elem := fun ne => by
    obtain ⟨v, hv⟩ := List.exists_mem_of_ne_nil items ne
    exact Schema.HasType.supplies (h v hv)
  obtain ⟨o, ho⟩ := clear.exists_lacking olds supplied fun _ => clear.ends elem
  rw [node_seq]
  refine .step (l := ⟨_, Nat.repr items.length⟩) (fun t _ retains => length_infers hn t retains)
    (fun line => ?_) apart.1
  rw [grow_eq line _ fun lacking => (ho lacking).1, pure_bind]
  refine (within limit shaped ?_ List.length_replicate (by omega) (fun _ => by omega) ?_).map _
  · intro x hx
    rw [List.eq_of_mem_replicate hx]
    exact (ho fun lacking => by simp [lacking] at hx).2
  · -- the length is no element
    refine owns.tail (fun _ region => .inr (region.imp fun _ h => h.2)) ?_
    rintro _ ⟨j, -, below⟩ rfl
    exact Name.Below.not_index (Name.word_of_isIdentifier (by decide)) (.refl _) below

/-- A struct is inferred from its fields. -/
protected theorem struct (clear : w.Clear inside) {ty : String} {d : StructDecl}
    {fields : List (String × Value)} (hd : w.schema.struct? ty = some d)
    (within : w.InferredFields inside doc name d.fields fields) :
    w.Inferred inside doc outer name (.struct ty) (.struct ty fields) := by
  intro limit old hold hlimit owns
  obtain ⟨olds, rfl, shaped⟩ := hold.exists_struct hd
  have called : d.name = ty := by simpa using List.find?_some hd
  have words : w.schema.words? (.struct ty) = some (d.fields.map Field.name) := by
    rw [Schema.words?, hd, Option.map_some]
  simp only [node] at owns ⊢
  rw [node_eq, nodeWith_struct]
  refine (within limit shaped (fun f hf => ?_) ?_).map _
  · exact Nat.le_trans (clear.nests.struct d (Schema.mem_of_struct? hd) f hf) (called ▸ hlimit)
  · rintro n hn ⟨f, hf, below⟩
    exact owns n hn ((Schema.region_iff words).mpr (.inl ⟨f.name, List.mem_map_of_mem hf, below⟩))

section
variable {ty : String} {u : ResolvedUnion} {d : Int32}

/-- What a union holds is read behind its tag: over what was there if the tag is the same as before,
or else over a new node. -/
theorem union_infers (clear : w.Clear inside) (hu : w.schema.union? ty = some u)
    (ht : (u.tagType.leaf d).Within w.schema.Knows) {e : Int32} {held : Option Value} {limit : Nat}
    {lines : List Line} {v : Value} (apart : Name.child name u.tag ∉ lines.map Line.name)
    (arm : ∀ line, (w.reader.armWith (w.reader.newer limit) name ty u e d line held).Infers doc name
      lines v) (ha : (u.arm? d).isSome) :
    (w.reader.node limit outer name (.union ty (.leaf (u.tagType.leaf e)) held)).Infers doc name
      ((w.leaf (Name.child name u.tag) (u.tagType.leaf d)).lines ++ lines) v := by
  obtain ⟨x, hlines, takes⟩ :=
    tag_takes clear.identified clear.tame (Name.child name u.tag) ht
  have hm := Schema.mem_of_union? hu
  have proper : ¬ Name.Structural (Name.child name u.tag) :=
    Name.not_structural_child (clear.identified.tag u hm) (clear.telling.tag u hm)
  have hu' : w.reader.schema.union? ty = some u := hu
  simp only [hlines, List.singleton_append, node_eq, nodeWith, hu']
  refine .lineOf fun line => .step (l := ⟨_, x⟩) (c := fun _ => .leaf (u.tagType.leaf d))
    (fun t _ retains => ?_) (fun _ => ?_) apart
  · rcases retains _ List.mem_cons_self with ⟨n, row⟩ | ⟨redundant, -⟩
    · exact ⟨n, ((takes e).map Value.leaf) t n row⟩
    · exact absurd redundant.structural proper
  · rw [settleTag_eq ha, pure_bind]
    obtain ⟨field?, hf⟩ := Option.isSome_iff_exists.mp ha
    cases field? with
    | none => simpa [hf, armWith] using arm line
    | some f => simpa [hf, armWith] using arm line

/-- A union without an arm is inferred from its tag. -/
protected theorem void (clear : w.Clear inside) (hu : w.schema.union? ty = some u)
    (ht : (u.tagType.leaf d).Within w.schema.Knows) (ha : u.arm? d = some none) :
    w.Inferred inside doc outer name (.union ty) (.union ty (.leaf (u.tagType.leaf d)) none) := by
  intro limit old hold _ _
  obtain ⟨e, held, rfl, -⟩ := hold.exists_union hu
  rw [node_void hu ha]
  refine union_infers clear hu ht (by simp) (fun line => ?_) (by rw [ha]; rfl)
  rw [armWith, ha]
  exact .pure

/-- A union with an arm is inferred from its tag and its arm. -/
protected theorem arm (clear : w.Clear inside) (hu : w.schema.union? ty = some u)
    (ht : (u.tagType.leaf d).Within w.schema.Knows) {f : Field} (ha : u.arm? d = some (some f))
    {v : Value} (h : w.schema.HasType f.ty v)
    (within : w.Inferred inside doc 0 (u.armName name f) f.ty v) :
    w.Inferred inside doc outer name (.union ty)
      (.union ty (.leaf (u.tagType.leaf d)) (some v)) := by
  intro limit old hold hlimit owns
  obtain ⟨e, held, rfl, hheld⟩ := hold.exists_union hu
  have hm := Schema.mem_of_union? hu
  have hf := Schema.mem_fields_of_arm? ha
  have called : u.name = ty := Schema.name_of_union? hu
  have deep : f.ty.nesting inside + 1 ≤ limit :=
    Nat.le_trans (clear.nests.union u hm f hf) (called ▸ hlimit)
  have typed : w.schema.HasType (.union ty) (.union ty (.leaf (u.tagType.leaf d)) (some v)) :=
    .union hu ht (ha ▸ .value h)
  have apart := (node_tidy clear.named clear.apart _ outer name typed).nodup
  rw [node_arm hu ha] at apart owns ⊢
  simp only [Written.lines_append, List.map_append, tag_names ht, List.singleton_append,
    List.nodup_cons] at apart owns ⊢
  have region : ∀ n, w.schema.Region (u.armName name f) f.ty n →
      w.schema.Region name (.union ty) n ∧ n ≠ Name.child name u.tag :=
    fun _ h => h.arm clear.named clear.apart hu hf
  have own : Owns doc (w.schema.Region (u.armName name f) f.ty)
      (w.node 0 (u.armName name f) v).lines :=
    owns.right (fun n h => (region n h).1) fun n hn h =>
      (region n h).2 (by simpa [tag_names ht] using hn)
  have identifier := clear.named.field f (Schema.mem_fields_of_union? hu ha)
  have below : ∀ n, Name.Below (u.armName name f) n → Name.Below name n :=
    fun _ => u.below_of_armName (Name.ne_empty_of_isIdentifier identifier)
  refine union_infers clear hu ht apart.1 (fun line => ?_) (by rw [ha]; rfl)
  rw [armWith_some ha]
  by_cases same : d = e
  · subst same
    rw [ha] at hheld
    rcases hheld.void_or_value with ⟨hn, -⟩ | ⟨_, o, hf, rfl, shaped⟩
    · cases hn
    · cases hf
      have reread := within limit shaped (by omega) own
      rw [node_eq] at reread
      simp only [if_true, heldWith]
      exact (reread.map _).below below
  · obtain ⟨limit, rfl⟩ := Nat.exists_eq_add_one_of_ne_zero (show limit ≠ 0 by omega)
    obtain ⟨o, made, shaped⟩ := clear.exists_initial (Schema.HasType.supplies h)
    simp only [if_neg same, heldWith, create_eq made]
    exact ((within limit shaped (by omega) own).map _).below below

end

end Inferred

/-! ### Elements and fields -/

theorem InferredItems.nil {elem : Ty} {i : Nat} : w.InferredItems inside doc name elem i [] := by
  intro limit olds more _ _ hmore _ _ _
  obtain rfl : more = [] := List.eq_nil_of_length_eq_zero (by simpa using hmore)
  simp only [List.length_nil, elements_zero, items]
  exact .pure

/-- Elements are inferred one after another, each from the lines of its index. -/
theorem InferredItems.cons (clear : w.Clear inside) (plain : Name.Plain name) {elem : Ty} {i : Nat}
    {v : Value} {vs : List Value} (h : ∀ x ∈ v :: vs, w.schema.HasType elem x)
    (first : w.Inferred inside doc 0 (Name.index name i) elem v)
    (rest : w.InferredItems inside doc name elem (i + 1) vs) :
    w.InferredItems inside doc name elem i (v :: vs) := by
  intro limit olds more ho hm hmore hlimit hless owns
  have typed := List.forall_mem_cons.mp h
  have apart := (items_tidy clear.named clear.apart (v :: vs) name i h).nodup
  have later := (items_tidy clear.named clear.apart vs name (i + 1) typed.2).mem
  have sooner := (node_tidy clear.named clear.apart v 0 (Name.index name i) typed.1).mem
  simp only [items, Written.lines_append, List.map_append, List.nodup_append', List.length_cons]
    at apart owns hmore ⊢
  have kept := items_kept clear.identified clear.tame vs (i := i) plain typed.2
  -- the names of an element are below it, and those of the others are not
  have own : Owns doc (w.schema.Region (Name.index name i) elem)
      (w.node 0 (Name.index name i) v).lines := by
    refine owns.left (fun _ region => ⟨i, Nat.le_refl i, region.below clear.named⟩)
      fun n hn region => ?_
    obtain ⟨j, hj, below⟩ := later n hn
    have same := below.index_injective (region.below clear.named)
    omega
  have others : Owns doc (fun n => ∃ j, i + 1 ≤ j ∧ Name.Below (Name.index name j) n)
      (w.items name (i + 1) vs).lines := by
    refine owns.right ?_ ?_
    · rintro _ ⟨j, hj, below⟩
      exact ⟨j, by omega, below⟩
    · rintro n hn ⟨j, hj, below⟩
      have same := (sooner n hn).slot.below_index.index_injective below
      omega
  have shrinks := newer_shrinks (r := w.reader) clear.sound limit
  cases olds with
  | cons o olds =>
      have was := List.forall_mem_cons.mp ho
      have one := first limit was.1 hlimit own
      rw [node_eq] at one
      rw [elements_old]
      exact one.pair List.cons (nodeWith_shrinks clear.sound shrinks was.1)
        (rest limit was.2 hm (by simpa using hmore) hlimit hless others) (fun _ h => h.of_index)
        (fun _ h => h) (items_apart apart.2.2) kept
  | nil =>
      obtain ⟨o, more, rfl⟩ := List.exists_cons_of_length_eq_add_one hmore
      have new := List.forall_mem_cons.mp hm
      have less := hless (by simp)
      rw [elements_new]
      refine Reading.Infers.pair List.cons ?_ (shrinks 0 _ elem o trivial new.1)
        (rest limit ho new.2 (by simpa using hmore) hlimit (fun _ => less) others)
        (fun _ h => h.of_index) (fun _ h => h) (items_apart apart.2.2) kept
      obtain ⟨limit, rfl⟩ := Nat.exists_eq_add_one_of_ne_zero (show limit ≠ 0 by omega)
      exact first limit new.1 (by omega) own

theorem InferredFields.nil : w.InferredFields inside doc name [] [] := by
  rintro limit _ ⟨⟩ _ _
  simp only [fieldsWith, fields]
  exact .pure

/-- Fields are inferred one after another, each from the lines of its name. -/
theorem InferredFields.cons (clear : w.Clear inside) (plain : Name.Plain name) {f : Field}
    {fs : List Field} {v : Value} {vs : List (String × Value)} (h : w.schema.HasType f.ty v)
    (t : w.schema.TypedFields w.schema.Knows fs vs) (hf : ∀ g ∈ f :: fs, Name.isIdentifier g.name)
    (distinct : ((f :: fs).map fun g => Name.shown g.name).Nodup)
    (first : w.Inferred inside doc 0 (Name.child name f.name) f.ty v)
    (rest : w.InferredFields inside doc name fs vs) :
    w.InferredFields inside doc name (f :: fs) ((f.name, v) :: vs) := by
  rintro limit _ (_ | ⟨ho, olds⟩) hlimit owns
  have identifiers := List.forall_mem_cons.mp hf
  have limits := List.forall_mem_cons.mp hlimit
  have typed : w.schema.TypedFields w.schema.Knows (f :: fs) ((f.name, v) :: vs) := .cons h t
  have apart := (fields_tidy clear.named clear.apart _ name typed hf distinct).nodup
  rw [List.map_cons, List.nodup_cons] at distinct
  have later := (fields_tidy clear.named clear.apart vs name t identifiers.2 distinct.2).mem
  have sooner := (node_tidy clear.named clear.apart v 0 (Name.child name f.name) h).mem
  simp only [fields, Written.lines_append, List.map_append, List.nodup_append'] at apart owns ⊢
  -- no name is that of a line of this field and of one behind it
  have other : ∀ n, Name.Within name f.name n → ∀ g ∈ fs, ¬ Name.Within name g.name n := by
    intro n within g hg within'
    exact distinct.1 (within.shown_eq within' ▸ List.mem_map_of_mem hg)
  have own : Owns doc (w.schema.Region (Name.child name f.name) f.ty)
      (w.node 0 (Name.child name f.name) v).lines := by
    refine owns.left (fun _ region => ⟨f, List.mem_cons_self, region.below clear.named⟩)
      fun n hn region => ?_
    obtain ⟨g, hg, within⟩ := later n hn
    exact other n ⟨f.name, identifiers.1, rfl, region.below clear.named⟩ g hg within
  have others : Owns doc (fun n => ∃ g ∈ fs, Name.Below (Name.child name g.name) n)
      (w.fields name vs).lines := by
    refine owns.right ?_ ?_
    · rintro _ ⟨g, hg, below⟩
      exact ⟨g, List.mem_cons_of_mem _ hg, below⟩
    · rintro n hn ⟨g, hg, below⟩
      exact other n ((sooner n hn).slot.within identifiers.1) g hg
        ⟨g.name, identifiers.2 g hg, rfl, below⟩
  have shrinks := newer_shrinks (r := w.reader) clear.sound limit
  have one := first limit ho limits.1 own
  rw [node_eq] at one
  simp only [fieldsWith]
  refine one.pair (fun c d => (f.name, c) :: d) (nodeWith_shrinks clear.sound shrinks ho)
    (rest limit olds limits.2 others)
    (fun _ h => h.of_child (Name.ne_empty_of_isIdentifier identifiers.1)) (fun _ h => h)
    (items_apart apart.2.2) fun l hl source below => ?_
  -- a source name below this field would be below one behind it as well
  obtain ⟨g, hg, under⟩ := fields_under clear.identified clear.tame vs plain t identifiers.2 l hl
  exact other l.name ⟨f.name, identifiers.1, rfl, below⟩ g hg
    ⟨g.name, identifiers.2 g hg, rfl, under.below source⟩

/-! ### Trees -/

mutual

/-- Reading a node infers it from the lines that are retained, whatever was there before. -/
theorem node_infers (clear : w.Clear inside) :
    ∀ (v : Value) (outer : Nat) {name : String} {ty : Ty}, w.schema.HasType ty v → v.Legible →
      w.Place name ty → w.Inferred inside doc outer name ty v
  | .leaf _, _, _, _, .leaf hl h, legible, place => by
      subst hl
      exact .leaf clear h (Value.legible_leaf.mp legible) place
  | .signature _, _, _, _, .signature h, _, _ => .signature clear h
  | .optional _ none, _, _, _, .absent, _, _ => .absent
  | .optional _ (some v), outer, _, _, .present h, legible, place =>
      .present clear h place (node_infers clear v (outer + 1) h legible place.inner)
  | .array items, _, _, _, .array hn h, legible, place => by
      subst hn
      exact .array
        (items_infers clear items 0 h legible (fun j hj => place.elem (by omega)) place.plain)
  | .seq _ _ items, _, _, _, .seq hn h, legible, place =>
      .seq clear hn h
        (items_infers clear items 0 h legible (fun j hj => place.item (by omega)) place.plain)
  | .struct _ fields, _, _, _, .struct hd h, legible, place =>
      have fieldOf := fun f hf => Schema.mem_fields_of_struct? (f := f) hd hf
      .struct clear hd (fields_infers clear fields h legible
        (fun f hf => .child clear place.plain (fieldOf f hf) (place.sources.field hd hf))
        (fun f hf => clear.named.field f (fieldOf f hf))
        (clear.apart.fields _ (Schema.mem_of_struct? hd)) place.plain)
  | .union _ _ none, _, _, _, h, _, _ => by
      obtain ⟨rfl, u, d, hu, rfl, ht, harm⟩ := h.of_union
      rcases harm.void_or_value with ⟨ha, -⟩ | ⟨_, _, -, hv, -⟩
      · exact .void clear hu ht ha
      · cases hv
  | .union _ _ (some v), _, _, _, h, legible, place => by
      obtain ⟨rfl, u, d, hu, rfl, ht, harm⟩ := h.of_union
      rcases harm.void_or_value with ⟨-, hv⟩ | ⟨f, _, ha, hv, h⟩
      · cases hv
      · cases hv
        have held : v.Legible := fun a hv => legible a (List.mem_append_right _ hv)
        exact .arm clear hu ht ha h (node_infers clear v 0 h held (place.arm clear hu ha))

termination_by structural v => v

/-- Elements with places of their own are inferred. -/
theorem items_infers (clear : w.Clear inside) :
    ∀ (vs : List Value) (i : Nat) {name : String} {elem : Ty},
      (∀ v ∈ vs, w.schema.HasType elem v) → (∀ a ∈ Value.itemAssets vs, a.Legible) →
      (∀ j, j < i + vs.length → w.Place (Name.index name j) elem) → Name.Plain name →
        w.InferredItems inside doc name elem i vs
  | [], _, _, _, _, _, _, _ => .nil
  | v :: vs, i, _, _, h, legible, place, plain => by
      have own := List.forall_mem_cons.mp h
      have assets := List.forall_mem_append.mp legible
      rw [List.length_cons] at place
      exact .cons clear plain h (node_infers clear v 0 own.1 assets.1 (place i (by omega)))
        (items_infers clear vs (i + 1) own.2 assets.2 (fun j hj => place j (by omega)) plain)

termination_by structural vs => vs

theorem fields_infers (clear : w.Clear inside) :
    ∀ (vs : List (String × Value)) {name : String} {fs : List Field},
      w.schema.TypedFields w.schema.Knows fs vs → (∀ a ∈ Value.fieldAssets vs, a.Legible) →
      (∀ f ∈ fs, w.Place (Name.child name f.name) f.ty) → (∀ f ∈ fs, Name.isIdentifier f.name) →
      (fs.map fun f => Name.shown f.name).Nodup → Name.Plain name →
        w.InferredFields inside doc name fs vs
  | [], _, _, .nil, _, _, _, _, _ => .nil
  | (_, v) :: vs, _, _, .cons h t, legible, place, hf, distinct, plain => by
      have places := List.forall_mem_cons.mp place
      have assets := List.forall_mem_append.mp legible
      have identifiers := List.forall_mem_cons.mp hf
      exact .cons clear plain h t hf distinct (node_infers clear v 0 h assets.1 places.1)
        (fields_infers clear vs t assets.2 places.2 identifiers.2
          (List.nodup_cons.mp distinct).2 plain)

termination_by structural vs => vs

end

end

end Writer

/-! ### Documents -/

/-- A document that lacks redundant lines has a table that retains all of them. -/
theorem Document.table_retains {lines kept : List Line} (fits : ∀ l ∈ lines, l.Fits)
    (nodup : (lines.map Line.name).Nodup) (sub : kept.Sublist lines)
    (redundant : ∀ l ∈ lines, l ∉ kept → l.Redundant) :
    (table (Written.text ⟨kept, []⟩)).Within (lines.map Line.name) ∧
      (table (Written.text ⟨kept, []⟩)).Retains lines := by
  have own : ∀ l ∈ kept, l.Fits := fun l hl => fits l (sub.subset hl)
  have names : ∀ n, ((table (Written.text ⟨kept, []⟩)).get? n).isSome → n ∈ kept.map Line.name := by
    intro n hn
    obtain ⟨row, hrow⟩ := Option.isSome_iff_exists.mp hn
    have mem := List.mem_map_of_mem (f := Prod.fst) (get?_table.mp hrow).1
    rwa [names_rows (w := ⟨kept, []⟩) own] at mem
  refine ⟨fun n hn => (sub.map Line.name).subset (names n hn), fun l hl => ?_⟩
  by_cases hk : l ∈ kept
  · exact .inl (holds_table (w := ⟨kept, []⟩) own (nodup.sublist (sub.map Line.name)) l hk)
  · refine .inr ⟨redundant l hl hk, Option.not_isSome_iff_eq_none.mp fun row => ?_⟩
    -- another line of its name would be the line itself
    obtain ⟨k, hk', same⟩ := List.mem_map.mp (names l.name row)
    obtain rfl := List.inj_on_of_nodup_map nodup (sub.subset hk') hl same
    exact hk hk'

/-- Reading the lines of a tree except for redundant ones leaves the tree, whatever was there
before. -/
theorem Schema.readWithin_trimmed {s : Schema} {a : Annotator} {name : String} {ty : Ty}
    {old v : Value} {inside : String → Nat} (clear : Writer.Clear ⟨s, a, v⟩ inside)
    (place : Writer.Place ⟨s, a, v⟩ name ty) (hold : s.HasType ty old) (h : s.HasType ty v)
    (legible : v.Legible) {kept : List Line} (sub : kept.Sublist (s.write a name v).lines)
    (redundant : ∀ l ∈ (s.write a name v).lines, l ∉ kept → l.Redundant) {limit : Nat}
    (deep : ty.nesting inside ≤ limit) :
    s.readWithin limit a.native name (Written.text ⟨kept, []⟩) old = ⟨v, [], [], true⟩ := by
  have fits : ∀ l ∈ (s.write a name v).lines, l.Fits := fun l hl =>
    (Writer.node_under clear.identified clear.tame v place.plain h l hl).toFits
  have nodup := write_names_nodup clear.named clear.apart h a name
  have stray := Document.strayLines_text (w := ⟨kept, []⟩) fun l hl => fits l (sub.subset hl)
  obtain ⟨within, retains⟩ := Document.table_retains fits nodup sub redundant
  have infers := Writer.node_infers clear v 0 h legible place limit hold.shaped deep
    (fun _ hn _ => hn) _ within retains
  change Reading.Reflects name _ True v _ (Reader.node ⟨s, a.native⟩ limit 0 name old _) at infers
  obtain ⟨hv, hf, ha⟩ := infers.exact trivial
  simp [readWithin, stray, hv, hf, ha, infers.ends]

namespace Envelope

theorem telling : schema.Telling := by
  decide

/-- How deeply new nodes can be nested in the structs and unions of envelopes. -/
def nesting : String → Nat
  | "TransactionEnvelope" => 6
  | "FeeBumpTransactionEnvelope" | "FeeBumpTransaction" | "FeeBumpInnerTx" => 5
  | "TransactionV0Envelope" | "TransactionV0" | "TransactionV1Envelope" | "Transaction" => 4
  | "Operation" | "OperationBody" => 3
  | "SetOptionsOp" => 2
  | _ => 1

/-- New nodes in an envelope are nested no deeper than that. -/
theorem nests : schema.Nests nesting := by
  decide

/-- Reading follows new nodes as deep as an envelope can have them. -/
theorem nesting_le_nestingLimit (t : Table) (v : Value) :
    ty.nesting nesting ≤ schema.nestingLimit t v := by
  have optionals : 6 ≤ schema.optionals := by decide
  have deep : ty.nesting nesting = 6 := rfl
  rw [deep, Schema.nestingLimit]
  exact Nat.le_trans (show 6 ≤ schema.optionals + v.optionals + 1 by omega)
    (Nat.le_mul_of_pos_left _ (Nat.mul_pos (Nat.succ_pos _) (Nat.succ_pos _)))

/-- From its lines, except for some that are redundant, an envelope with legible assets is read back
without a fault, whatever envelope was there before. -/
theorem read_trimmed (zone : Form.Zone) {old v : Value} (hold : schema.HasType ty old)
    (h : schema.HasType ty v) (legible : v.Legible) {kept : List Line}
    (sub : kept.Sublist (schema.write (.plain zone) "" v).lines)
    (redundant : ∀ l ∈ (schema.write (.plain zone) "" v).lines, l ∉ kept → l.Redundant) :
    schema.read (Annotator.plain zone).native "" (Written.text ⟨kept, []⟩) old =
      ⟨v, [], [], true⟩ :=
  have regular : Writer.Regular ⟨schema, .plain zone, v⟩ :=
    ⟨sound, identified, Annotator.plain_tame zone⟩
  have root : Writer.Place ⟨schema, .plain zone, v⟩ "" ty :=
    ⟨by decide, Name.not_structural_empty, bareSources, rfl, nofun⟩
  Schema.readWithin_trimmed ⟨regular, apart, telling, nests, not_endless⟩ root hold h legible sub
    redundant (nesting_le_nestingLimit _ _)

/-- A transaction with bounds in time and no operations. -/
def bounded : Decoded :=
  schema.read Annotator.plain.native "" "type: ENVELOPE_TYPE_TX\ntx.timeBounds.minTime: 5\n" initial

/-- Its lines without those that say that the bounds are there and that it is empty. -/
def boundedLines : List Line :=
  (schema.write .plain "" bounded.value).lines.filter fun l =>
    l.name ∉ ["tx.timeBounds._present", "tx.operations.len", "signatures.len"]

theorem read_trimmed_bounded :
    schema.HasType ty payment.value ∧ schema.HasType ty bounded.value ∧ bounded.value.Legible ∧
      boundedLines.Sublist (schema.write .plain "" bounded.value).lines ∧
      (∀ l ∈ (schema.write .plain "" bounded.value).lines, l ∉ boundedLines → l.Redundant) ∧
      schema.read Annotator.plain.native "" (Written.text ⟨boundedLines, []⟩) payment.value =
        ⟨bounded.value, [], [], true⟩ := by
  have typed : schema.HasType ty bounded.value := read_hasType initial_hasType
  have legible : bounded.value.Legible := by decide +kernel
  have sub : boundedLines.Sublist (schema.write .plain "" bounded.value).lines :=
    List.filter_sublist
  have lacking : ∀ l ∈ (schema.write .plain "" bounded.value).lines, l ∉ boundedLines →
      l.name = Name.presence "tx.timeBounds" 1 ∨
        (l.name = Name.length "tx.operations" ∨ l.name = Name.length "signatures") ∧
          l.text = "0" := by
    decide +kernel
  have redundant : ∀ l ∈ (schema.write .plain "" bounded.value).lines, l ∉ boundedLines →
      l.Redundant := fun l hl hk =>
    (lacking l hl hk).imp (fun h => ⟨_, _, h⟩) fun h => ⟨h.1.elim (⟨_, ·⟩) (⟨_, ·⟩), h.2⟩
  exact ⟨payment_hasType, typed, legible, sub, redundant,
    read_trimmed .utc payment_hasType typed legible sub redundant⟩

end Envelope

end XdrText
