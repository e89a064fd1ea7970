import XdrText.Lookup
import XdrText.Proofs.Envelope
import XdrText.Proofs.Name
import XdrText.Proofs.Visit

/-!
# XdrText — the node that a name finds

A name is the answer of a node that goes by it, and of a bare source key that has it for a short
name (`Visit.Answers`).  The short name is hidden where an optional or an inline union around the
key already goes by the long one.

Writing gives a node below another a name that goes on from the other's, or the other's own name if
that stands around it (`Visit.Inside`).  So no answer is lost where the search does not enter a node
whose name cannot begin the name wanted (`Visit.Inside.mayContain`).

**Lookup** (`Schema.find?_first_answer`).  The search finds the path to the first node, in the order
in which the tree is written, that answers to the name, and nothing only if there is none.
-/

namespace XdrText

/-! ### Names -/

namespace Name

/-- Looking goes into the nodes that the wanted name is below. -/
theorem mayContain_iff {name wanted : String} :
    mayContain name wanted = true ↔ Below name wanted := by
  rw [mayContain]
  split
  next root => exact iff_of_true rfl (.inl root)
  next ne =>
  split
  next start =>
    obtain ⟨tail, ht⟩ := List.isPrefixOf_iff_prefix.mp start
    rw [← ht, List.drop_left]
    cases tail with
    | nil =>
        rw [List.append_nil] at ht
        exact iff_of_true rfl (.inr (.inl (String.toList_injective ht.symm)))
    | cons c rest =>
        have joint : isJoint c = true ↔ c = '.' ∨ c = '[' := by simp [isJoint]
        simp only [decide_eq_true_eq, Bool.or_eq_true, ← joint]
        refine ⟨fun hc => .inr (.inr ⟨c, rest, ht.symm, hc⟩), fun below => ?_⟩
        obtain ⟨tail, hn, hc⟩ := below.exists_tail ne
        rw [← ht, List.append_cancel_left_eq] at hn
        exact hc c (by rw [← hn]; rfl)
  next other =>
    refine iff_of_false (by simp) fun below => other ?_
    obtain ⟨tail, hn, -⟩ := below.exists_tail ne
    exact List.isPrefixOf_iff_prefix.mpr ⟨tail, hn.symm⟩

/-- Only the root is above the root. -/
theorem Below.ne_empty {a b : String} (h : Below a b) (ne : a ≠ "") : b ≠ "" := by
  obtain ⟨tail, hb, -⟩ := h.exists_tail ne
  rintro rfl
  exact ne (String.toList_injective (List.append_eq_nil_iff.mp hb.symm).1)

/-- Two names that are below each other are the same, but for the root. -/
theorem Below.antisymm {a b : String} (ne : a ≠ "") (hab : Below a b) (hba : Below b a) :
    a = b := by
  obtain ⟨tail, hb, -⟩ := hab.exists_tail ne
  obtain ⟨tail', ha, -⟩ := hba.exists_tail (hab.ne_empty ne)
  have lengths := congrArg List.length ha
  rw [hb, List.length_append, List.length_append] at lengths
  have empty : tail = [] := List.eq_nil_of_length_eq_zero (by omega)
  exact String.toList_injective (by rw [hb, empty, List.append_nil])

/-- The ending that a short name lacks has no dot and no bracket. -/
theorem Below.short {name n short : String} (h : Below name n) (ne : n ≠ name)
    (hs : sourceAlias? n = some short) : Below name short := by
  rcases h with root | same | ⟨c, rest, hn, hc⟩
  · exact .inl root
  · exact absurd same ne
  obtain ⟨start, hlong, hshort⟩ := sourceAlias?_eq_some hs
  have unjoint : c ∉ "Ed25519".toList := fun hm =>
    absurd hc ((by simp [isJoint] : ∀ c ∈ "Ed25519".toList, ¬ isJoint c) c hm)
  have split : name.toList ++ c :: rest = short.toList ++ "Ed25519".toList := by
    rw [← hn, hlong, hshort, List.append_assoc]
    rfl
  rcases List.append_eq_append_iff.mp split with ⟨between, hshort, hrest⟩ | ⟨between, -, hend⟩
  · cases between with
    | nil =>
        rw [List.nil_append] at hrest
        exact absurd (hrest ▸ List.mem_cons_self) unjoint
    | cons d tail =>
        obtain ⟨rfl, -⟩ := List.cons.inj hrest
        exact .inr (.inr ⟨c, tail, hshort, hc⟩)
  · exact absurd (hend ▸ List.mem_append_right between List.mem_cons_self) unjoint

end Name

/-! ### Nodes inside a node -/

namespace Visit

/-- A node is among the parts of one with a name, which is in `around`. -/
structure Inside (around : List String) (name : String) (x : Visit) : Prop where
  around : around ⊆ x.around
  below : Name.Below name x.name
  /-- A part goes by the same name only where that stands around it. -/
  same : x.name = name → name = "" ∨ name ∈ x.around

namespace Inside
variable {around : List String} {name : String} {x y : Visit}

/-- A part of a part is a part. -/
theorem trans (hy : y.Inside around name) (hx : x.Inside y.around y.name) :
    x.Inside around name := by
  by_cases root : name = ""
  · exact ⟨List.Subset.trans hy.around hx.around, .inl root, fun _ => .inl root⟩
  · refine ⟨List.Subset.trans hy.around hx.around, hy.below.trans (hy.below.ne_empty root) hx.below,
      fun same => ?_⟩
    have between : y.name = name := (hy.below.antisymm root (same ▸ hx.below)).symm
    exact .inr (hx.around ((hy.same between).resolve_left root))

/-! The first node of a part -/

section
variable {around' : List String} (h : around ⊆ around') {path : List Step} {v : Value} {outer : Nat}
include h

/-- An optional shares its name with what it holds. -/
theorem again (mem : name ∈ around') : Inside around name ⟨path, name, v, outer, around'⟩ :=
  ⟨h, .refl name, fun _ => .inr mem⟩

/-- A field is a part. -/
theorem child (field : String) :
    Inside around name ⟨path, Name.child name field, v, outer, around'⟩ := by
  refine ⟨h, Name.below_child name field, fun same =>
    Decidable.or_iff_not_imp_left.mpr fun ne => ?_⟩
  have length := congrArg (fun n => n.toList.length) same
  simp [Name.toList_child, Name.front, ne] at length

/-- An element is a part. -/
theorem index (i : Nat) : Inside around name ⟨path, Name.index name i, v, outer, around'⟩ := by
  refine ⟨h, Name.below_index name i, fun same => ?_⟩
  have length := congrArg (fun n => n.toList.length) same
  simp [Name.toList_index] at length

/-- What a union holds is a part; an inline arm shares the name of the union. -/
theorem arm (u : ResolvedUnion) (f : Field) (inline : u.inline → name ∈ around') :
    Inside around name ⟨path, u.armName name f, v, outer, around'⟩ := by
  rw [ResolvedUnion.armName]
  split
  next hi => exact again h (inline hi)
  next => exact child h f.name

end

end Inside

end Visit

namespace Schema
variable {s : Schema}

/-- What is inside a part of a node is inside the node. -/
theorem inside_under {around around' : List String} {outer : Nat} {name name' : String} {v : Value}
    (hv : Visit.Inside around name ⟨[], name', v, outer, around'⟩)
    (h : ∀ x ∈ (s.visits around' outer name' v).tail, x.Inside around' name') (step : Step) :
    ∀ x ∈ (s.visits around' outer name' v).map (Visit.under step), x.Inside around name := by
  rw [visits_eq_cons, List.forall_mem_map, List.forall_mem_cons]
  refine ⟨⟨hv.around, hv.below, hv.same⟩, fun x hx => ?_⟩
  have inside := hv.trans (h x hx)
  exact ⟨inside.around, inside.below, inside.same⟩

mutual

/-- Below a node there are only nodes inside it, by recursion on the tree: each part is inside it,
and what is inside a part is (`Visit.Inside.trans`). -/
theorem inside_of_mem_tail (s : Schema) (around : List String) (outer : Nat) (name : String) :
    ∀ v : Value, ∀ x ∈ (s.visits around outer name v).tail, x.Inside around name
  | .leaf _ | .signature _ | .optional _ none => by
      rw [visits]
      exact List.forall_mem_nil _
  | .optional inner (some v) => by
      rw [visits]
      exact inside_under (.again (List.subset_cons_self ..) List.mem_cons_self)
        (inside_of_mem_tail s (name :: around) (outer + 1) name v) _
  | .array items | .seq _ _ items => by
      rw [visits]
      exact inside_of_mem_itemVisits s around name 0 items
  | .struct _ fields => by
      rw [visits]
      exact inside_of_mem_fieldVisits s around name 0 fields
  | .union ty tag arm => by
      rw [visits, List.tail_cons]
      split
      · exact List.forall_mem_nil _
      next u _ =>
      cases tag.discriminant?.bind _ with
      | none => exact List.forall_mem_nil _
      | some field =>
      have sub : around ⊆ if u.inline then name :: around else around := by
        split
        · exact List.subset_cons_self ..
        · exact fun _ => id
      rw [List.forall_mem_append]
      refine ⟨inside_under (.child sub u.tag) (inside_of_mem_tail s _ 0 _ tag) _, ?_⟩
      cases field with
      | none => exact List.forall_mem_nil _
      | some f =>
        cases arm with
        | none => exact List.forall_mem_nil _
        | some v =>
          exact inside_under (.arm sub u f fun h => by simp [h]) (inside_of_mem_tail s _ 0 _ v) _

theorem inside_of_mem_itemVisits (s : Schema) (around : List String) (name : String) :
    ∀ (i : Nat) (vs : List Value), ∀ x ∈ s.itemVisits around name i vs, x.Inside around name
  | _, [] => List.forall_mem_nil _
  | i, v :: vs => by
      rw [itemVisits, List.forall_mem_append]
      exact ⟨inside_under (.index (fun _ => id) i) (inside_of_mem_tail s around 0 _ v) _,
        inside_of_mem_itemVisits s around name (i + 1) vs⟩

theorem inside_of_mem_fieldVisits (s : Schema) (around : List String) (name : String) :
    ∀ (i : Nat) (fs : List (String × Value)), ∀ x ∈ s.fieldVisits around name i fs,
      x.Inside around name
  | _, [] => List.forall_mem_nil _
  | i, (field, v) :: fs => by
      rw [fieldVisits, List.forall_mem_append]
      exact ⟨inside_under (.child (fun _ => id) field) (inside_of_mem_tail s around 0 _ v) _,
        inside_of_mem_fieldVisits s around name (i + 1) fs⟩

end

end Schema

/-! ### Answers -/

namespace Value

/-- Opaque data of fixed length that is shown in hexadecimal. -/
def isHex : Value → Bool
  | .leaf (.fixed _) => true
  | _ => false

end Value

/-- The short name of a leaf is that of opaque data under the name of a bare source key. -/
theorem Leaf.hasShortName_iff {name wanted : String} {l : Leaf} :
    l.hasShortName name wanted = true ↔
      (Value.leaf l).isHex ∧ Name.sourceAlias? name = some wanted := by
  cases l with
  | fixed data =>
      cases h : Name.sourceAlias? name <;> simp [hasShortName, bareSource?, Value.isHex, h]
  | _ => simp [hasShortName, bareSource?, Value.isHex]

namespace Visit

/-- A node goes by the name wanted, or is a bare source key with that short name which nothing
hides. -/
def Answers (wanted : String) (x : Visit) : Prop :=
  x.name = wanted ∨
    x.node.isHex ∧ Name.sourceAlias? x.name = some wanted ∧ x.name ∉ x.around

instance (wanted : String) : DecidablePred (Answers wanted) := fun x =>
  inferInstanceAs (Decidable (x.name = wanted ∨
    x.node.isHex ∧ Name.sourceAlias? x.name = some wanted ∧ x.name ∉ x.around))

/-- What answers inside a node has a name that the node's name can begin. -/
theorem Inside.mayContain {around : List String} {name wanted : String} {x : Visit}
    (h : x.Inside around name) (ha : x.Answers wanted) : Name.mayContain name wanted = true := by
  refine Name.mayContain_iff.mpr ?_
  rcases ha with rfl | ⟨-, short, hidden⟩
  · exact h.below
  · by_cases same : x.name = name
    · exact .inl ((h.same same).resolve_right (same ▸ hidden))
    · exact h.below.short same short

/-- The path to the first of the nodes that answers. -/
def first? (wanted : String) (xs : List Visit) : Option (List Step) :=
  (xs.find? fun x => x.Answers wanted).map path

variable {wanted : String}

/-- The first answer is one among the first visits, or else among the others. -/
theorem first?_append (xs ys : List Visit) :
    first? wanted (xs ++ ys) = (first? wanted xs <|> first? wanted ys) := by
  rw [first?, List.find?_append, Option.map_or, Option.or_eq_orElse]
  rfl

/-- From a step above, the path to the first answer begins with the step. -/
theorem first?_under (step : Step) (xs : List Visit) :
    first? wanted (xs.map (Visit.under step)) = (first? wanted xs).map (step :: ·) := by
  rw [first?, List.find?_map, Option.map_map, first?, Option.map_map]
  rfl

end Visit

/-! ### The search -/

namespace Schema
variable {s : Schema} {known : String → Int32 → Prop} {wanted : String}

/-- A node that is no opaque data answers by its own name only, and its parts are searched where its
name can begin the name wanted. -/
theorem first?_visits {around : List String} {outer : Nat} {name : String} {v : Value}
    (plain : v.isHex = false) :
    Visit.first? wanted (s.visits around outer name v) =
      if name = wanted then some []
      else if Name.mayContain name wanted then
        Visit.first? wanted (s.visits around outer name v).tail
      else none := by
  rw [visits_eq_cons, List.tail_cons, Visit.first?]
  by_cases named : name = wanted
  · simp [Visit.Answers, named]
  · have skipped : ¬ Visit.Answers wanted ⟨[], name, v, outer, around⟩ := by
      simp [Visit.Answers, named, plain]
    rw [if_neg named, List.find?_cons_of_neg (by simpa using skipped)]
    split
    · rfl
    next pruned =>
      rw [Option.map_eq_none_iff, List.find?_eq_none]
      exact fun x hx ha =>
        pruned ((inside_of_mem_tail s around outer name v x hx).mayContain (of_decide_eq_true ha))

/-- A name around the nodes of a tree that is no bare source key with the short name wanted. -/
theorem unhidden_cons {around : List String} {name : String}
    (h : ∀ a ∈ around, Name.sourceAlias? a ≠ some wanted)
    (may : Name.mayContain name wanted = true) :
    ∀ a ∈ name :: around, Name.sourceAlias? a ≠ some wanted := by
  refine List.forall_mem_cons.mpr ⟨fun short => ?_, h⟩
  have shorter := Name.length_lt_of_sourceAlias? short
  obtain ⟨tail, hn, -⟩ := (Name.mayContain_iff.mp may).exists_tail (by rintro rfl; cases short)
  have length := congrArg List.length hn
  rw [List.length_append, String.length_toList, String.length_toList] at length
  omega

mutual

/-- The search by recursion on the tree, where no name around the nodes hides an answer. -/
theorem find?_eq_first? :
    ∀ (v : Value) (outer : Nat) (name : String) {around : List String} {ty : Ty},
      s.Typed known ty v → (∀ a ∈ around, Name.sourceAlias? a ≠ some wanted) →
        s.find? wanted name v = Visit.first? wanted (s.visits around outer name v)
  | .leaf l, outer, name, around, _, _, h => by
      rw [visits_eq_cons, find?]
      simp only [Leaf.hasShortName_iff]
      by_cases named : name = wanted
      · simp [Visit.first?, Visit.Answers, named]
      by_cases short : (Value.leaf l).isHex ∧ Name.sourceAlias? name = some wanted
      · have hidden : name ∉ around := fun mem => h name mem short.2
        simp [Visit.first?, Visit.Answers, named, short, hidden]
      · have skipped : ¬ Visit.Answers wanted ⟨[], name, .leaf l, outer, around⟩ := by
          rintro (hn | ⟨hex, hs, -⟩)
          · exact named hn
          · exact short ⟨hex, hs⟩
        simp [Visit.first?, named, short, skipped, visits]
  | .signature g, outer, name, _, _, _, _ | .optional inner none, outer, name, _, _, _, _ => by
      rw [first?_visits rfl, find?, visits, List.tail_cons]
      simp [Visit.first?]
  | .optional inner (some v), outer, name, _, _, ht, h => by
      rw [first?_visits rfl, find?, visits, List.tail_cons, Visit.first?_under]
      refine if_congr Iff.rfl rfl (ite_congr rfl (fun may => ?_) fun _ => rfl)
      rw [find?_eq_first? v _ _ (ht.of_optional.2 v rfl) (unhidden_cons h may)]
  | .array items, outer, name, _, _, .array _ ht, h
  | .seq _ _ items, outer, name, _, _, .seq _ ht, h => by
      rw [first?_visits rfl, find?, visits, List.tail_cons, findItem?_eq_first? items ht h]
  | .struct ty fields, outer, name, _, _, .struct _ ht, h => by
      rw [first?_visits rfl, find?, visits, List.tail_cons, findField?_eq_first? fields ht h]
  | .union ty tag arm, outer, name, around, _, ht, h => by
      rw [first?_visits rfl, find?, visits, List.tail_cons]
      refine if_congr Iff.rfl rfl (ite_congr rfl (fun may => ?_) fun _ => rfl)
      obtain ⟨-, u, d, hu, rfl, hd, harm⟩ := ht.of_union
      have deeper : ∀ a ∈ if u.inline then name :: around else around,
          Name.sourceAlias? a ≠ some wanted := by
        split
        · exact unhidden_cons h may
        · exact h
      simp only [hu, TagType.discriminant?_leaf, Option.bind_some]
      have tag := find?_eq_first? (.leaf (u.tagType.leaf d)) 0 (Name.child name u.tag)
        (.leaf rfl hd) deeper
      rcases harm.void_or_value with ⟨hf, rfl⟩ | ⟨f, v, hf, rfl, hv⟩
      · simp [hf, tag, Visit.first?_under]
      · simp only [hf, Option.join_some, Visit.first?_append, Visit.first?_under, tag]
        rw [find?_eq_first? v 0 (u.armName name f) hv deeper]

/-- Looking through elements finds the first visit that answers. -/
theorem findItem?_eq_first? :
    ∀ (vs : List Value) {around : List String} {name : String} {i : Nat} {ty : Ty},
      (∀ v ∈ vs, s.Typed known ty v) → (∀ a ∈ around, Name.sourceAlias? a ≠ some wanted) →
        s.findItem? wanted name i vs = Visit.first? wanted (s.itemVisits around name i vs)
  | [], _, _, _, _, _, _ => rfl
  | v :: vs, around, name, i, _, ht, h => by
      rw [findItem?, itemVisits, Visit.first?_append, Visit.first?_under,
        find?_eq_first? v _ _ (ht v List.mem_cons_self) h,
        findItem?_eq_first? vs (fun w hw => ht w (List.mem_cons_of_mem _ hw)) h]

/-- Looking through fields finds the first visit that answers. -/
theorem findField?_eq_first? :
    ∀ (vs : List (String × Value)) {around : List String} {name : String} {i : Nat}
      {fs : List Field},
      s.TypedFields known fs vs → (∀ a ∈ around, Name.sourceAlias? a ≠ some wanted) →
        s.findField? wanted name i vs = Visit.first? wanted (s.fieldVisits around name i vs)
  | [], _, _, _, _, _, _ => rfl
  | (_, v) :: vs, around, name, i, _, .cons ht hts, h => by
      rw [findField?, fieldVisits, Visit.first?_append, Visit.first?_under,
        find?_eq_first? v _ _ ht h, findField?_eq_first? vs hts h]

end

/-- The search finds the first node that answers, in the order in which the tree is written: it
gives the path of that node, which leads to it, and nothing only where no node answers. -/
theorem find?_first_answer {ty : Ty} {v : Value} (h : s.HasType ty v) (name wanted : String) :
    (s.find? wanted name v =
      ((s.visits [] 0 name v).find? fun x => x.Answers wanted).map Visit.path) ∧
    (s.find? wanted name v = none ↔ ∀ x ∈ s.visits [] 0 name v, ¬ x.Answers wanted) ∧
    (∀ path, s.find? wanted name v = some path →
      ∃ x, (s.visits [] 0 name v).find? (fun x => x.Answers wanted) = some x ∧
        v.follow? path = some x.node) ∧
    ∀ a : Annotator, (s.write a name v).lines =
      (s.visits [] 0 name v).flatMap (Writer.ownLines ⟨s, a, v⟩) := by
  have first : s.find? wanted name v = Visit.first? wanted (s.visits [] 0 name v) :=
    find?_eq_first? v 0 name h (List.forall_mem_nil _)
  refine ⟨first, ?_, fun path found => ?_, fun a => Writer.lines_node ⟨s, a, v⟩ [] 0 name v⟩
  · rw [first, Visit.first?, Option.map_eq_none_iff, List.find?_eq_none]
    simp
  · obtain ⟨x, hx, rfl⟩ := Option.map_eq_some_iff.mp (first.symm.trans found)
    exact ⟨x, hx, follow?_of_mem_visits s [] 0 name v x (List.mem_of_find?_eq_some hx)⟩

/-- A new envelope keeps its source account as a bare key. -/
theorem find?_first_answer_envelope :
    Envelope.schema.HasType Envelope.ty Envelope.initial ∧
      ∃ x, (Envelope.schema.visits [] 0 "" Envelope.initial).find?
          (fun x => x.Answers "tx.sourceAccount") = some x ∧
        Envelope.initial.follow? [.arm, .field 0, .field 0] = some x.node := by
  have found : Envelope.schema.find? "tx.sourceAccount" "" Envelope.initial =
      some [.arm, .field 0, .field 0] := by decide +kernel
  exact ⟨Envelope.initial_hasType,
    (find?_first_answer Envelope.initial_hasType "" "tx.sourceAccount").2.2.1 _ found⟩

/-- The short name of a key is hidden by an optional that goes by the long one. -/
example : Envelope.schema.find? "tx.sourceAccount" "tx.sourceAccountEd25519"
    (.optional (.fixed 1) (some (.leaf (.fixed [0])))) = none := by decide +kernel

end Schema

end XdrText
