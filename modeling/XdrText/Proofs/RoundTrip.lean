import XdrText.Proofs.Mirror
import XdrText.Proofs.Walk

/-!
# XdrText — a tree is read back from its document

**Round trip** (`Schema.read_write`).  A founded tree, whose lines have names of their own and whose
assets are legible, is written without a fault, and reading its document leaves the tree without a
fault or a request for help, whatever tree of its type was there before.

The proof walks over the tree that was written.  Reading a node into a value shaped like its type
mirrors the lines of the node (`Writer.node_mirrors`): whatever the value was before, it becomes the
one written, if and only if each asset in that is legible.
-/

namespace XdrText
open Key

/-- The assets of a leaf. -/
def Leaf.assets : Leaf → List Asset
  | .asset a => [a]
  | _ => []

namespace Value

mutual

/-- The assets in a tree. -/
def assets : Value → List Asset
  | .leaf l => l.assets
  | .signature _ | .optional _ none => []
  | .optional _ (some v) => v.assets
  | .array items | .seq _ _ items => itemAssets items
  | .struct _ fields => fieldAssets fields
  | .union _ tag none => tag.assets
  | .union _ tag (some v) => tag.assets ++ v.assets

def itemAssets : List Value → List Asset
  | [] => []
  | v :: vs => v.assets ++ itemAssets vs

def fieldAssets : List (String × Value) → List Asset
  | [] => []
  | (_, v) :: fs => v.assets ++ fieldAssets fs

end

/-- Every asset in the tree is read back from its text. -/
def Legible (v : Value) : Prop :=
  ∀ a ∈ v.assets, a.Legible

instance (v : Value) : Decidable v.Legible :=
  List.decidableBAll _ v.assets

/-- A leaf is legible as a tree if it is legible by itself. -/
theorem legible_leaf {l : Leaf} : (Value.leaf l).Legible ↔ l.Legible := by
  cases l <;> simp [Legible, assets, Leaf.assets, Leaf.Legible]

end Value

/-- There are no assets in a tag. -/
theorem TagType.assets_leaf (u : TagType) (d : Int32) : (u.leaf d).assets = [] := by
  cases u <;> rfl

namespace Writer
open Reader
variable {w : Writer}

/-- Lines with other names are no lines of an element. -/
theorem items_apart {lines more : List Line}
    (h : (lines.map Line.name).Disjoint (more.map Line.name)) :
    ∀ l ∈ more, l.name ∉ lines.map Line.name :=
  fun _ hl hm => h hm (List.mem_map_of_mem hl)

/-- No later element has the line of a source name below an earlier one. -/
theorem items_kept (identified : w.schema.Identified) (tame : w.annotator.Tame) (vs : List Value)
    {name : String} {elem : Ty} {i : Nat} (hname : Name.Plain name)
    (h : ∀ v ∈ vs, w.schema.HasType elem v) :
    ∀ l ∈ (w.items name (i + 1) vs).lines, (Name.sourceAlias? l.name).isSome →
      ¬ Name.Below (Name.index name i) l.name := by
  intro l hl source below
  obtain ⟨j, hj, under⟩ := items_under identified tame vs hname h l hl
  have same := below.index_injective (under.below source)
  omega

/-- A sound schema, whose names are identifiers, and an annotator that is tame. -/
structure Regular (w : Writer) : Prop where
  sound : w.schema.Sound
  identified : w.schema.Identified
  tame : w.annotator.Tame

/-- Where a sequence lacks elements there is an initial one. -/
theorem Regular.exists_lacking (regular : w.Regular) {elem : Ty} {items : List Value}
    (olds : List Value) (supplied : items ≠ [] → w.schema.Supplies elem)
    (ends : items ≠ [] → ¬ w.schema.Endless elem) :
    ∃ o, items.length - olds.length ≠ 0 →
      w.reader.schema.initial elem = .ok o ∧ w.schema.Shaped elem o := by
  by_cases none : items = []
  · exact ⟨.array [], fun lacking => absurd (by simp [none]) lacking⟩
  · obtain ⟨o, ho⟩ := Schema.exists_initial regular.sound (supplied none) (ends none)
    exact ⟨o, fun _ => ho⟩

/-- Reading a node into any value shaped like its type mirrors the lines that the node is written
on.  Each new node takes a line away, so new nodes are nested in one another no more often than
there are lines. -/
def Mirrored (w : Writer) (outer : Nat) (name : String) (ty : Ty) (v : Value) : Prop :=
  ∀ (limit : Nat) {old : Value}, w.schema.Shaped ty old →
    ((w.node outer name v).lines.map Line.name).Nodup → (w.node outer name v).lines.length ≤ limit →
      (w.reader.node limit outer name old).Mirrors name (w.node outer name v).lines v.Legible v

/-- Elements that are there are read in their places, and new ones behind them. -/
def MirroredItems (w : Writer) (name : String) (elem : Ty) (i : Nat) (vs : List Value) : Prop :=
  ∀ (limit : Nat) {olds more : List Value}, (∀ o ∈ olds, w.schema.Shaped elem o) →
    (∀ o ∈ more, w.schema.Shaped elem o) → more.length = vs.length - olds.length →
    ((w.items name i vs).lines.map Line.name).Nodup → (w.items name i vs).lines.length ≤ limit →
    (more ≠ [] → (w.items name i vs).lines.length < limit) →
      (w.reader.elements (w.reader.newer limit) name i vs.length olds more).Mirrors name
        (w.items name i vs).lines (∀ a ∈ Value.itemAssets vs, a.Legible) vs

/-- The fields of a struct are read in their order. -/
def MirroredFields (w : Writer) (name : String) (fs : List Field) (vs : List (String × Value)) :
    Prop :=
  ∀ (limit : Nat) {olds : List (String × Value)},
    w.schema.TypedFields (fun _ _ => True) fs olds →
    ((w.fields name vs).lines.map Line.name).Nodup → (w.fields name vs).lines.length ≤ limit →
      (w.reader.fieldsWith (w.reader.newer limit) name olds).Mirrors name (w.fields name vs).lines
        (∀ a ∈ Value.fieldAssets vs, a.Legible) vs

/-! ### One node -/

namespace Mirrored
variable {outer : Nat} {name : String}

/-- Leaves are mirrored, whatever leaf of the type was there. -/
protected theorem leaf (regular : w.Regular) {l : Leaf} (h : l.Within w.schema.Knows)
    (hs : w.schema.BareSources name l.ty) : w.Mirrored outer name l.ty (.leaf l) := by
  intro limit old hold _ _
  obtain ⟨l', rfl, hty⟩ := hold.exists_leaf
  simp only [node_eq, nodeWith, node]
  exact (Reading.Mirrors.map (fun _ => Value.leaf.inj)
    (leaf_mirrors regular.identified regular.tame h hty hs)).congr Value.legible_leaf.symm

/-- Signatures are mirrored. -/
protected theorem signature (regular : w.Regular) {g : Signature}
    (h : g.body.length ≤ Signature.maximum) :
    w.Mirrored outer name .signature (.signature g) := by
  intro limit old hold _ _
  obtain ⟨g', rfl⟩ := hold.exists_signature
  simp only [node_eq, nodeWith, node]
  exact (Reading.Mirrors.map (fun _ => Value.signature.inj)
    (signature_mirrors regular.tame h)).congr (by simp [Value.Legible, Value.assets])

/-- That an optional is absent is mirrored, whatever it held. -/
protected theorem absent {inner : Ty} :
    w.Mirrored outer name (.optional inner) (.optional inner none) := by
  intro limit old hold _ _
  obtain ⟨held, rfl, -⟩ := hold.exists_optional
  simp only [node_eq, nodeWith, node]
  exact .of_takes ((presence_takes name (outer + 1) false).bind fun _ => rfl)
    (by simp [Value.Legible, Value.assets])

/-- What an optional holds is read over what was there, or else over a new node. -/
protected theorem present (regular : w.Regular) {inner : Ty} {v : Value}
    (supplied : w.schema.Supplies inner) (ends : ¬ w.schema.Endless inner)
    (inside : w.Mirrored (outer + 1) name inner v) :
    w.Mirrored outer name (.optional inner) (.optional inner (some v)) := by
  intro limit old hold nodup hlen
  obtain ⟨held, rfl, hheld⟩ := hold.exists_optional
  simp only [node, Written.lines_append, Written.lines_line, List.singleton_append,
    List.map_cons, List.nodup_cons, List.length_cons] at nodup hlen ⊢
  simp only [node_eq, nodeWith]
  -- the line that says it is there
  refine .step (presence_takes name (outer + 1) true) (fun _ => ?_) nodup.1
  refine .lineOf fun line => ?_
  have placed : ∀ o, Value.optional inner (some o) = .optional inner (some v) → o = v :=
    fun _ h => Option.some.inj (Value.optional.inj h).2
  cases held with
  | some o =>
      have reread := inside limit (hheld o rfl) nodup.2 (by omega)
      rw [node_eq] at reread
      simp only [heldWith]
      exact .map placed reread
  | none =>
      -- the line leaves the limit one for a new node
      obtain ⟨limit, rfl⟩ := Nat.exists_eq_add_one_of_ne_zero (show limit ≠ 0 by omega)
      obtain ⟨o, ho, shaped⟩ := Schema.exists_initial regular.sound supplied ends
      have made : w.reader.schema.initial inner = .ok o := ho
      simp only [heldWith, create_eq made]
      exact .map placed (inside limit shaped nodup.2 (by omega))

/-- An array is mirrored where its elements are. -/
protected theorem array {elem : Ty} {items : List Value}
    (inside : w.MirroredItems name elem 0 items) :
    w.Mirrored outer name (.array elem items.length) (.array items) := by
  intro limit old hold nodup hlen
  obtain ⟨olds, rfl, holds, shaped⟩ := hold.exists_array
  simp only [node] at nodup hlen ⊢
  rw [node_eq, nodeWith_array, holds]
  exact .map (fun _ => Value.array.inj)
    (inside limit shaped (by simp) (by simp [holds]) nodup hlen (by simp))

/-- The elements of a sequence that are lacking are new. -/
protected theorem seq (regular : w.Regular) {elem : Ty} {max : UInt32} {items : List Value}
    (hn : items.length ≤ max.toNat) (supplied : items ≠ [] → w.schema.Supplies elem)
    (ends : items ≠ [] → ¬ w.schema.Endless elem) (inside : w.MirroredItems name elem 0 items) :
    w.Mirrored outer name (.seq elem max) (.seq elem max items) := by
  intro limit old hold nodup hlen
  obtain ⟨olds, rfl, shaped⟩ := hold.exists_seq
  simp only [node, Written.lines_append, Written.lines_line, Written.lines_faultOf,
    List.append_nil, List.singleton_append, List.map_cons, List.nodup_cons,
    List.length_cons] at nodup hlen ⊢
  obtain ⟨o, ho⟩ := regular.exists_lacking olds supplied ends
  rw [node_seq]
  -- the line of the length, and the elements
  refine .step (length_takes name hn) (fun line => ?_) nodup.1
  rw [grow_eq line _ fun lacking => (ho lacking).1, pure_bind]
  refine .map (fun _ h => (Value.seq.inj h).2.2) (inside limit shaped ?_ List.length_replicate
    nodup.2 (by omega) fun _ => by omega)
  intro x hx
  rw [List.eq_of_mem_replicate hx]
  exact (ho fun lacking => by simp [lacking] at hx).2

/-- A struct is mirrored where its fields are. -/
protected theorem struct {ty : String} {d : StructDecl} {fields : List (String × Value)}
    (hd : w.schema.struct? ty = some d) (inside : w.MirroredFields name d.fields fields) :
    w.Mirrored outer name (.struct ty) (.struct ty fields) := by
  intro limit old hold nodup hlen
  obtain ⟨olds, rfl, shaped⟩ := hold.exists_struct hd
  simp only [node] at nodup hlen ⊢
  rw [node_eq, nodeWith_struct]
  exact .map (fun _ h => (Value.struct.inj h).2) (inside limit shaped nodup hlen)

section
variable {ty : String} {u : ResolvedUnion} {d : Int32}

/-- A union without an arm for its tag to hold is mirrored by the line of the tag. -/
protected theorem void (regular : w.Regular) (hu : w.schema.union? ty = some u)
    (ht : (u.tagType.leaf d).Within w.schema.Knows) (ha : u.arm? d = some none) :
    w.Mirrored outer name (.union ty) (.union ty (.leaf (u.tagType.leaf d)) none) := by
  intro limit old hold nodup hlen
  obtain ⟨e, held, rfl, -⟩ := hold.exists_union hu
  obtain ⟨x, hlines, takes⟩ :=
    tag_takes regular.identified regular.tame (Name.child name u.tag) ht
  have hu' : w.reader.schema.union? ty = some u := hu
  rw [node_void hu ha]
  simp only [Written.lines_append, Written.lines_empty, hlines, node_eq, nodeWith, hu']
  refine .lineOf fun line => .step ((takes e).map Value.leaf) (fun _ => ?_) (by simp)
  rw [settleTag_eq (by rw [ha]; rfl), pure_bind]
  simp only [TagType.discriminant?_leaf, Option.bind_some, ha]
  exact .pure (by simp [Value.Legible, Value.assets, TagType.assets_leaf])

/-- The arm is read over what was there if the tag is the same as before, or else over a new
node. -/
protected theorem arm (regular : w.Regular) (hu : w.schema.union? ty = some u)
    (ht : (u.tagType.leaf d).Within w.schema.Knows) {f : Field} (ha : u.arm? d = some (some f))
    (ends : ¬ w.schema.Endless f.ty) {v : Value}
    (inside : w.Mirrored 0 (u.armName name f) f.ty v) :
    w.Mirrored outer name (.union ty) (.union ty (.leaf (u.tagType.leaf d)) (some v)) := by
  intro limit old hold nodup hlen
  obtain ⟨e, held, rfl, hheld⟩ := hold.exists_union hu
  obtain ⟨x, hlines, takes⟩ :=
    tag_takes regular.identified regular.tame (Name.child name u.tag) ht
  have hu' : w.reader.schema.union? ty = some u := hu
  have identifier := regular.identified.field f (Schema.mem_fields_of_union? hu ha)
  have below : ∀ n, Name.Below (u.armName name f) n → Name.Below name n :=
    fun _ => u.below_of_armName (Name.ne_empty_of_isIdentifier identifier)
  rw [node_arm hu ha] at nodup hlen ⊢
  simp only [Written.lines_append, hlines, List.singleton_append, List.map_cons,
    List.nodup_cons, List.length_cons] at nodup hlen ⊢
  simp only [node_eq, nodeWith, hu']
  -- the line of the tag, which has an arm
  refine .lineOf fun line => .step ((takes e).map Value.leaf) (fun _ => ?_) nodup.1
  rw [settleTag_eq (by rw [ha]; rfl), pure_bind]
  simp only [TagType.discriminant?_leaf, Option.bind_some, ha]
  have placed : ∀ o, Value.union ty (.leaf (u.tagType.leaf d)) (some o) =
      .union ty (.leaf (u.tagType.leaf d)) (some v) → o = v :=
    fun _ h => Option.some.inj (Value.union.inj h).2.2
  have legible : v.Legible ↔ (Value.union ty (.leaf (u.tagType.leaf d)) (some v)).Legible := by
    simp [Value.Legible, Value.assets, TagType.assets_leaf]
  by_cases same : d = e
  · subst same
    rw [ha] at hheld
    rcases hheld.void_or_value with ⟨hn, -⟩ | ⟨_, o, hf, rfl, shaped⟩
    · cases hn
    · cases hf
      simp only [ne_eq, not_true_eq_false, decide_false, Bool.false_eq_true, if_false, heldWith]
      have reread := inside limit shaped nodup.2 (by omega)
      rw [node_eq] at reread
      exact ((reread.map placed).below below).congr legible
  · -- the line leaves the limit one for a new node
    obtain ⟨limit, rfl⟩ := Nat.exists_eq_add_one_of_ne_zero (show limit ≠ 0 by omega)
    obtain ⟨o, ho, shaped⟩ := Schema.exists_initial regular.sound
      (regular.sound.supplies_arm u (Schema.mem_of_union? hu) d f ha) ends
    have made : w.reader.schema.initial f.ty = .ok o := ho
    simp only [ne_eq, same, not_false_eq_true, decide_true, if_true, create_eq made]
    exact (((inside limit shaped nodup.2 (by omega)).map placed).below below).congr legible

end

end Mirrored

/-! ### Elements and fields -/

theorem MirroredItems.nil {name : String} {elem : Ty} {i : Nat} :
    w.MirroredItems name elem i [] := by
  intro limit olds more _ _ hmore _ _ _
  obtain rfl : more = [] := List.eq_nil_of_length_eq_zero (by simpa using hmore)
  simp only [List.length_nil, elements_zero, items]
  exact .pure (by simp [Value.itemAssets])

/-- Elements are mirrored where the first and the others are, as they have no name in common. -/
theorem MirroredItems.cons (regular : w.Regular) {name : String} (hname : Name.Plain name)
    {elem : Ty} {i : Nat} {v : Value} {vs : List Value} (h : ∀ x ∈ vs, w.schema.HasType elem x)
    (first : w.Mirrored 0 (Name.index name i) elem v)
    (rest : w.MirroredItems name elem (i + 1) vs) : w.MirroredItems name elem i (v :: vs) := by
  intro limit olds more ho hm hmore nodup hlen hlt
  simp only [items, Written.lines_append, List.map_append, List.nodup_append',
    List.length_append, List.length_cons] at nodup hlen hlt hmore ⊢
  have legible : (v.Legible ∧ ∀ a ∈ Value.itemAssets vs, a.Legible) ↔
      ∀ a ∈ Value.itemAssets (v :: vs), a.Legible := by
    rw [Value.itemAssets]
    exact List.forall_mem_append.symm
  have kept := items_kept regular.identified regular.tame vs (i := i) hname h
  cases olds with
  | cons o olds =>
      have was := List.forall_mem_cons.mp ho
      have one := first limit was.1 nodup.1 (by omega)
      have others := rest limit was.2 hm (by simpa using hmore) nodup.2.1 (by omega)
        fun ne => by have := hlt ne; omega
      rw [node_eq] at one
      rw [elements_old]
      exact (one.pair (fun _ _ => List.cons.inj) others (fun _ h => h.of_index) (fun _ h => h)
        (items_apart nodup.2.2) kept).congr legible
  | nil =>
      obtain ⟨o, more, rfl⟩ := List.exists_cons_of_length_eq_add_one hmore
      have new := List.forall_mem_cons.mp hm
      -- new elements are read with one less, so the limit is not used up
      have less := hlt (by simp)
      obtain ⟨limit, rfl⟩ := Nat.exists_eq_add_one_of_ne_zero (show limit ≠ 0 by omega)
      have one := first limit new.1 nodup.1 (by omega)
      have others := rest (limit + 1) ho new.2 (by simpa using hmore) nodup.2.1 (by omega)
        fun _ => by omega
      rw [elements_new]
      exact (one.pair (fun _ _ => List.cons.inj) others (fun _ h => h.of_index) (fun _ h => h)
        (items_apart nodup.2.2) kept).congr legible

theorem MirroredFields.nil {name : String} : w.MirroredFields name [] [] := by
  rintro limit _ ⟨⟩ _ _
  simp only [fieldsWith, fields]
  exact .pure (by simp [Value.fieldAssets])

/-- Fields are mirrored where the first and the others are, as they go by different words. -/
theorem MirroredFields.cons (regular : w.Regular) {name : String} (hname : Name.Plain name)
    {f : Field} {fs : List Field} {v : Value} {vs : List (String × Value)}
    (t : w.schema.TypedFields w.schema.Knows fs vs)
    (hf : ∀ g ∈ f :: fs, Name.isIdentifier g.name) (new : f.name ∉ fs.map Field.name)
    (first : w.Mirrored 0 (Name.child name f.name) f.ty v)
    (rest : w.MirroredFields name fs vs) :
    w.MirroredFields name (f :: fs) ((f.name, v) :: vs) := by
  rintro limit _ (_ | ⟨ho, olds⟩) nodup hlen
  have identifiers := List.forall_mem_cons.mp hf
  simp only [fields, Written.lines_append, List.map_append, List.nodup_append',
    List.length_append] at nodup hlen ⊢
  have one := first limit ho nodup.1 (by omega)
  have others := rest limit olds nodup.2.1 (by omega)
  rw [node_eq] at one
  simp only [fieldsWith]
  refine (one.pair (fun _ _ h => ?_) others
    (fun _ h => h.of_child (Name.ne_empty_of_isIdentifier identifiers.1)) (fun _ h => h)
    (items_apart nodup.2.2) fun l hl source below => ?_).congr
      (by rw [Value.fieldAssets]; exact List.forall_mem_append.symm)
  · exact ⟨(Prod.mk.inj (List.cons.inj h).1).2, (List.cons.inj h).2⟩
  · -- a source name below this field would be below one behind it as well
    obtain ⟨g, hg, under⟩ := fields_under regular.identified regular.tame vs hname t
      identifiers.2 l hl
    have same := below.child_injective (Name.word_of_isIdentifier identifiers.1)
      (Name.word_of_isIdentifier (identifiers.2 g hg)) (under.below source)
    exact new (same ▸ List.mem_map_of_mem hg)

/-! ### Trees -/

mutual

/-- Reading a node of a founded tree mirrors its lines, whatever was there before. -/
theorem node_mirrors (regular : w.Regular) :
    ∀ (v : Value) (outer : Nat) {name : String} {ty : Ty}, w.schema.HasType ty v →
      v.Founded w.schema → w.schema.BareSources name ty → Name.Plain name →
      w.Mirrored outer name ty v
  | .leaf _, _, _, _, .leaf hl h, _, hs, _ => by
      subst hl
      exact .leaf regular h hs
  | .signature _, _, _, _, .signature h, _, _, _ => .signature regular h
  | .optional _ none, _, _, _, .absent, _, _, _ => .absent
  | .optional _ (some v), outer, _, _, .present h, founded, hs, hname =>
      .present regular (Schema.HasType.supplies h) founded.1
        (node_mirrors regular v (outer + 1) h founded.2 hs.inner hname)
  | .array items, _, _, _, .array hn h, founded, hs, hname => by
      subst hn
      exact .array (items_mirrors regular items 0 h founded (fun j hj => hs.elem (by omega)) hname)
  | .seq _ _ items, _, _, _, .seq hn h, founded, hs, hname => by
      refine .seq regular hn (fun ne => ?_) founded.1
        (items_mirrors regular items 0 h founded.2 (fun j hj => hs.item (by omega)) hname)
      obtain ⟨v, hv⟩ := List.exists_mem_of_ne_nil items ne
      exact Schema.HasType.supplies (h v hv)
  | .struct _ fields, _, _, _, .struct hd h, founded, hs, hname =>
      .struct hd (fields_mirrors regular fields h founded (fun _ hf => hs.field hd hf)
        (fun f hf => regular.identified.field f (Schema.mem_fields_of_struct? hd hf))
        (regular.sound.fields_nodup _ (Schema.mem_of_struct? hd)) hname)
  | .union _ _ none, _, _, _, h, _, _, _ => by
      obtain ⟨rfl, u, d, hu, rfl, ht, harm⟩ := h.of_union
      rcases harm.void_or_value with ⟨ha, -⟩ | ⟨_, _, -, hv, -⟩
      · exact .void regular hu ht ha
      · cases hv
  | .union _ _ (some v), _, name, _, h, founded, hs, hname => by
      obtain ⟨rfl, u, d, hu, rfl, ht, harm⟩ := h.of_union
      rcases harm.void_or_value with ⟨-, hv⟩ | ⟨f, _, ha, hv, h⟩
      · cases hv
      · cases hv
        have plain : Name.Plain (u.armName name f) := by
          rw [ResolvedUnion.armName]
          split
          · exact hname
          · exact hname.child (Name.plain_of_isIdentifier
              (regular.identified.field f (Schema.mem_fields_of_union? hu ha)))
        exact .arm regular hu ht ha (founded.1 f.ty (Schema.armType?_eq hu ha))
          (node_mirrors regular v 0 h founded.2 (hs.arm hu ha) plain)

termination_by structural v => v

/-- Elements are mirrored, by recursion on the tree. -/
theorem items_mirrors (regular : w.Regular) :
    ∀ (vs : List Value) (i : Nat) {name : String} {elem : Ty},
      (∀ v ∈ vs, w.schema.HasType elem v) → Value.FoundedItems w.schema vs →
      (∀ j, j < i + vs.length → w.schema.BareSources (Name.index name j) elem) →
      Name.Plain name → w.MirroredItems name elem i vs
  | [], _, _, _, _, _, _, _ => .nil
  | v :: vs, i, _, _, h, founded, hs, hname => by
      have own := List.forall_mem_cons.mp h
      rw [List.length_cons] at hs
      exact .cons regular hname own.2
        (node_mirrors regular v 0 own.1 founded.1 (hs i (by omega)) (hname.index i))
        (items_mirrors regular vs (i + 1) own.2 founded.2 (fun j hj => hs j (by omega)) hname)

termination_by structural vs => vs

/-- Fields are mirrored, by recursion on the tree. -/
theorem fields_mirrors (regular : w.Regular) :
    ∀ (vs : List (String × Value)) {name : String} {fs : List Field},
      w.schema.TypedFields w.schema.Knows fs vs → Value.FoundedFields w.schema vs →
      (∀ f ∈ fs, w.schema.BareSources (Name.child name f.name) f.ty) →
      (∀ f ∈ fs, Name.isIdentifier f.name) → (fs.map Field.name).Nodup → Name.Plain name →
      w.MirroredFields name fs vs
  | [], _, _, .nil, _, _, _, _, _ => .nil
  | (_, v) :: vs, _, _, .cons h t, founded, hs, hf, distinct, hname => by
      have sources := List.forall_mem_cons.mp hs
      have identifiers := List.forall_mem_cons.mp hf
      rw [List.map_cons, List.nodup_cons] at distinct
      exact .cons regular hname t hf distinct.1
        (node_mirrors regular v 0 h founded.1 sources.1
          (hname.child (Name.plain_of_isIdentifier identifiers.1)))
        (fields_mirrors regular vs t founded.2 sources.2 identifiers.2 distinct.2 hname)

termination_by structural vs => vs

end

end Writer

/-! ### Documents -/

namespace Schema
variable {s : Schema}

/-- There is room for as many new nodes as there are rows. -/
theorem size_le_nestingLimit (t : Table) (v : Value) : t.size ≤ s.nestingLimit t v := by
  rw [nestingLimit, Nat.mul_assoc]
  exact Nat.le_trans (Nat.le_succ _) (Nat.le_mul_of_pos_right _ (by simp))

/-- What reading the document of a tree comes to, whatever was there before. -/
theorem read_text {a : Annotator} {name : String} {ty : Ty} {old v : Value}
    (regular : Writer.Regular ⟨s, a, v⟩) (hname : Name.Plain name) (h : s.HasType ty v)
    (hold : s.HasType ty old) (founded : v.Founded s) (hs : s.BareSources name ty)
    (nodup : ((s.write a name v).lines.map Line.name).Nodup) :
    (v.Legible → s.read a.native name (s.write a name v).text old = ⟨v, [], [], true⟩) ∧
      ((s.read a.native name (s.write a name v).text old).value = v →
        (s.read a.native name (s.write a name v).text old).faults = [] → v.Legible) := by
  have fits : ∀ l ∈ (s.write a name v).lines, l.Fits := fun l hl =>
    (Writer.node_under regular.identified regular.tame v hname h l hl).toFits
  -- the table of the document
  have stray := Document.strayLines_text fits
  have holds := Document.holds_table fits nodup
  have enough := Nat.le_trans (Document.length_le_size fits nodup)
    (size_le_nestingLimit (s := s) (Document.table (s.write a name v).text) old)
  -- the walk
  have mirrors :=
    Writer.node_mirrors regular v 0 h founded hs hname _ hold.shaped nodup enough _ holds
  change Reading.Reflects name _ v.Legible v _ (Reader.node ⟨s, a.native⟩ _ 0 name old _) at mirrors
  obtain ⟨exact, only, ends, -⟩ := mirrors
  refine ⟨fun legible => ?_, fun hv hf => only hv ?_⟩
  · obtain ⟨hv, hf, ha⟩ := exact legible
    simp [read, readWithin, stray, hv, hf, ha, ends]
  · simpa [read, readWithin, stray] using hf

/-- Where a tree is founded, its lines have names of their own and its assets are legible, its
document is written without a fault, and reading it leaves the tree, whatever was there before. -/
theorem read_write {d : Definitions} (resolved : d.resolve = .ok s) (identified : s.Identified)
    {a : Annotator} (tame : a.Tame) {ty : Ty} {old v : Value} (hold : s.HasType ty old)
    (h : s.HasType ty v) (founded : v.Founded s) (sources : s.BareSources "" ty)
    (nodup : ((s.write a "" v).lines.map Line.name).Nodup) (legible : v.Legible) :
    (s.write a "" v).faults = [] ∧
      s.read a.native "" (s.write a "" v).text old = ⟨v, [], [], true⟩ := by
  have regular : Writer.Regular ⟨s, a, v⟩ :=
    ⟨Definitions.resolve_sound resolved, identified, tame⟩
  exact ⟨write_faults h sources,
    (read_text regular (by decide) h hold founded sources nodup).1 legible⟩

/-- A list of assets, which enters itself through an optional. -/
def chainDefinitions : Definitions where
  enums := []
  structs := [⟨"Chain", [⟨"asset", .asset⟩, ⟨"rest", .optional (.struct "Chain")⟩]⟩]
  unions := []

def chain : Schema :=
  ⟨[], chainDefinitions.structs, []⟩

/-- A link of a chain, and the chain behind it. -/
def link (asset : Asset) (rest : Option Value) : Value :=
  .struct "Chain" [("asset", .leaf (.asset asset)), ("rest", .optional (.struct "Chain") rest)]

theorem link_hasType {asset : Asset} {rest : Option Value}
    (h : ∀ v, rest = some v → chain.HasType (.struct "Chain") v) :
    chain.HasType (.struct "Chain") (link asset rest) := by
  have hd : chain.struct? "Chain" =
    some ⟨"Chain", [⟨"asset", .asset⟩, ⟨"rest", .optional (.struct "Chain")⟩]⟩ := rfl
  refine .struct hd (.cons (.leaf rfl trivial) (.cons ?_ .nil))
  cases rest with
  | none => exact .absent
  | some v => exact .present (h v rfl)

/-- A chain of one link is read into one of two. -/
theorem read_write_chain :
    (chain.write .plain "" (link .native (some (link .native none)))).faults = [] ∧
      chain.read Annotator.plain.native ""
        (chain.write .plain "" (link .native (some (link .native none)))).text (link .native none) =
          ⟨link .native (some (link .native none)), [], [], true⟩ :=
  read_write (d := chainDefinitions) rfl (by decide +kernel) (Annotator.plain_tame .utc)
    (link_hasType nofun) (link_hasType (by rintro _ ⟨⟩; exact link_hasType nofun))
    (Value.founded (not_endless_of_fields (by decide +kernel)) _)
    (bareSources_of_opaques (by decide) (by decide +kernel)) (by decide +kernel) (by decide +kernel)

/-- A union, of which the first arm is the union again. -/
def ringDefinitions : Definitions where
  enums := []
  structs := []
  unions := [⟨"Ring", "v", .int, [⟨[.value 0], some ⟨"next", .union "Ring"⟩⟩, ⟨[.value 1], none⟩],
    none, false⟩]

def ring : Schema :=
  ⟨[], [], ringDefinitions.unions.map fun u => ⟨u, [(0, 0), (1, 1)]⟩⟩

def ringType : Ty :=
  .optional (.union "Ring")

/-- A ring that ends at once. -/
def ringEnd : Value :=
  .optional (.union "Ring") (some (.union "Ring" (.leaf (.int 1)) none))

/-- A new ring has no end, so that none is read where there was none before. -/
theorem read_write_ring :
    ringDefinitions.resolve = .ok ring ∧ ring.Identified ∧ Annotator.plain.Tame ∧
      ring.HasType ringType (.optional (.union "Ring") none) ∧ ring.HasType ringType ringEnd ∧
      ring.BareSources "" ringType ∧
      ((ring.write .plain "" ringEnd).lines.map Line.name).Nodup ∧ ringEnd.Legible ∧
      ring.read Annotator.plain.native "" (ring.write .plain "" ringEnd).text
        (.optional (.union "Ring") none) ≠ ⟨ringEnd, [], [], true⟩ := by
  have hu : ring.union? "Ring" = some ⟨⟨"Ring", "v", .int,
    [⟨[.value 0], some ⟨"next", .union "Ring"⟩⟩, ⟨[.value 1], none⟩], none, false⟩,
    [(0, 0), (1, 1)]⟩ := rfl
  refine ⟨rfl, by decide +kernel, Annotator.plain_tame .utc, .absent,
    .present (.union (d := 1) hu trivial .void),
    bareSources_of_opaques (by decide) (by decide +kernel), by decide +kernel, by decide +kernel,
    fun read => ?_⟩
  have stuck : (ring.read Annotator.plain.native "" (ring.write .plain "" ringEnd).text
      (.optional (.union "Ring") none)).complete = false := by decide +kernel
  rw [read] at stuck
  cases stuck

end Schema

end XdrText
