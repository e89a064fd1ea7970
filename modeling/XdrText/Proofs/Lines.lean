import XdrText.Proofs.Document
import XdrText.Proofs.Leaf

/-!
# XdrText — the lines of a node

Every line that a value of a type is written on fits, and if it has the name of a bare source key
then that name is below the name of the node (`Writer.node_under`).  So the long names of bare
source keys, whose rows are dropped unread, never belong to a line of another node beside it.
-/

namespace XdrText
open Text Form Key

/-- A line of a node with a name. -/
structure Line.Under (name : String) (l : Line) : Prop extends l.Fits where
  below : (Name.sourceAlias? l.name).isSome → Name.Below name l.name

namespace Line.Under
variable {name : String} {l : Line}

/-- A line of a field is one of what it is a field of. -/
theorem of_child {field : String} (hf : field ≠ "") (h : l.Under (Name.child name field)) :
    l.Under name :=
  ⟨h.toFits, fun hs => (h.below hs).of_child hf⟩

/-- A line of an element is one of what it is an element of. -/
theorem of_index {i : Nat} (h : l.Under (Name.index name i)) : l.Under name :=
  ⟨h.toFits, fun hs => (h.below hs).of_index⟩

/-- A line under the name of a child. -/
theorem child {field text : String} (hname : Name.Plain name) (hf : Name.Plain field)
    (ht : Settled text.toList) : Line.Under name ⟨Name.child name field, text⟩ :=
  ⟨⟨(hname.child hf).stands, ht⟩, fun _ => Name.below_child name field⟩

end Line.Under

/-- What is below the name of an arm is below that of its union. -/
theorem ResolvedUnion.below_of_armName {u : ResolvedUnion} {name n : String} {f : Field}
    (hf : f.name ≠ "") (h : Name.Below (u.armName name f) n) : Name.Below name n := by
  rw [armName] at h
  split at h
  · exact h
  · exact h.of_child hf

namespace Writer
variable {w : Writer}

/-- A bare source key of 32 bytes is written as an account under its short name. -/
theorem leaf_of_bareSource {name short : String} (hs : Name.sourceAlias? name = some short)
    (key : Block 32) : w.leaf name (.fixed key.bytes) = w.account short (.ed25519 key) := by
  simp only [leaf, Leaf.bareSource?, hs, Option.map_some, Block.ofBytes?_bytes]

/-- The hint of a signature is in hexadecimal, with or without a note. -/
theorem signature_shows (tame : w.annotator.Tame) (g : Signature) :
    ∃ x, Shows x (Hex.encode g.hint.bytes) ∧ ∀ name, (w.signature name g).lines =
      [⟨Name.child name "hint", x⟩,
        ⟨Name.child name "signature", String.ofList (Octets.render g.body)⟩] := by
  have ne : Hex.encode g.hint.bytes ≠ [] := fun h => by
    have length := congrArg List.length h
    rw [Hex.length_encode, g.hint.length_bytes] at length
    cases length
  obtain ⟨x, hx, shows⟩ := Shows.noted (String.ofList (Hex.encode g.hint.bytes))
    (by simpa using ne) (by simpa [Marks] using Hex.graphic_encode _)
    (tame.signature w.root g)
  exact ⟨x, by simpa using shows, fun name => by simp [signature, hx]⟩

/-- A leaf is written on at most one line, under its own name or the short one of a bare source
key. -/
theorem leaf_line (identified : w.schema.Identified) (tame : w.annotator.Tame) (name : String)
    {x : Leaf} (h : x.Within w.schema.Knows) : (w.leaf name x).lines = [] ∨
      ∃ n text, (n = name ∨ Name.sourceAlias? name = some n) ∧ Settled text.toList ∧
        (w.leaf name x).lines = [⟨n, text⟩] := by
  simp only [leaf]
  split
  next =>
    obtain ⟨text, hlines, recovers⟩ := plainLeaf_recovers identified tame h name
    exact .inr ⟨name, text, .inl rfl, recovers.settled, hlines⟩
  next short data hb =>
    obtain ⟨-, hs⟩ := Leaf.bareSource?_eq_some hb
    split
    next key _ =>
      obtain ⟨text, hlines, shows⟩ := account_shows tame (.ed25519 key)
      exact .inr ⟨short, text, .inr hs, shows.settled, hlines short⟩
    next => exact .inl rfl

/-- The line of a leaf is one of its name, and so is that of a bare source key, under the short
name. -/
theorem leaf_under (identified : w.schema.Identified) (tame : w.annotator.Tame) {name : String}
    (hname : Name.Plain name) {x : Leaf} (h : x.Within w.schema.Knows) :
    ∀ l ∈ (w.leaf name x).lines, l.Under name := by
  rcases leaf_line identified tame name h with empty | ⟨n, text, hn, settled, hlines⟩
  · simp [empty]
  · simp only [hlines, List.forall_mem_singleton]
    rcases hn with rfl | hs
    · exact ⟨⟨hname.stands, settled⟩, fun _ => .refl n⟩
    · -- a short name is that of no bare source key
      refine ⟨⟨(hname.short hs).stands, settled⟩, fun h => ?_⟩
      rw [Name.sourceAlias?_short hs] at h
      cases h

/-- A union with a void arm is written as its tag. -/
theorem node_void {outer : Nat} {name ty : String} {u : ResolvedUnion} {d : Int32}
    (hu : w.schema.union? ty = some u) (ha : u.arm? d = some none) :
    w.node outer name (.union ty (.leaf (u.tagType.leaf d)) none) =
      w.leaf (Name.child name u.tag) (u.tagType.leaf d) ++ .empty := by
  simp [node, hu, ha]

/-- A union that holds a value is written as its tag and the value. -/
theorem node_arm {outer : Nat} {name ty : String} {u : ResolvedUnion} {d : Int32} {f : Field}
    {v : Value} (hu : w.schema.union? ty = some u) (ha : u.arm? d = some (some f)) :
    w.node outer name (.union ty (.leaf (u.tagType.leaf d)) (some v)) =
      w.leaf (Name.child name u.tag) (u.tagType.leaf d) ++ w.node 0 (u.armName name f) v := by
  simp [node, hu, ha]

mutual

theorem node_under (identified : w.schema.Identified) (tame : w.annotator.Tame) :
    ∀ (v : Value) {outer : Nat} {name : String} {ty : Ty}, Name.Plain name →
      w.schema.HasType ty v → ∀ l ∈ (w.node outer name v).lines, l.Under name
  | .leaf x, outer, name, _, hname, .leaf _ h => by
      simp only [node]
      exact leaf_under identified tame hname h
  | .signature g, outer, name, _, hname, _ => by
      obtain ⟨x, shows, hlines⟩ := signature_shows tame g
      simp only [node, hlines, List.forall_mem_cons]
      exact ⟨.child hname (by decide) shows.settled,
        .child hname (by decide)
          (by simpa using Octets.settled_render g.body), by simp⟩
  | .optional inner none, outer, name, _, hname, .absent => by
      simp only [node, Written.lines_line, List.forall_mem_cons]
      exact ⟨.child hname (Name.plain_selector _)
        (.of_graphic (forall_of_all (by decide)) (by decide)), by simp⟩
  | .optional inner (some v), outer, name, _, hname, .present h => by
      simp only [node, Written.lines_append, Written.lines_line, List.singleton_append,
        List.forall_mem_cons]
      exact ⟨.child hname (Name.plain_selector _)
        (.of_graphic (forall_of_all (by decide)) (by decide)),
        node_under identified tame v hname h⟩
  | .array items, outer, name, .array elem n, hname, .array _ h => by
      simp only [node]
      exact fun l hl => by
        obtain ⟨_, -, under⟩ := items_under identified tame items hname h l hl
        exact under.of_index
  | .seq elem max items, outer, name, _, hname, .seq _ h => by
      simp only [node, Written.lines_append, Written.lines_line, Written.lines_faultOf,
        List.append_nil, List.singleton_append, List.forall_mem_cons]
      exact ⟨.child hname (by decide)
        (toList_natRepr _ ▸ (Shows.self (marks_repr items.length)).settled), fun l hl => by
          obtain ⟨_, -, under⟩ := items_under identified tame items hname h l hl
          exact under.of_index⟩
  | .struct _ fields, outer, name, _, hname, .struct hd h => by
      simp only [node]
      intro l hl
      have identifier := fun f hf => identified.field f (Schema.mem_fields_of_struct? hd hf)
      obtain ⟨f, hf, under⟩ := fields_under identified tame fields hname h identifier l hl
      exact under.of_child (Name.ne_empty_of_isIdentifier (identifier f hf))
  | .union ty tag none, outer, name, _, hname, h => by
      obtain ⟨rfl, u, d, hu, rfl, ht, harm⟩ := h.of_union
      rcases harm.void_or_value with ⟨ha, -⟩ | ⟨_, _, -, hv, -⟩
      · have identifier := identified.tag u (Schema.mem_of_union? hu)
        rw [node_void hu ha]
        simp only [Written.lines_append, Written.lines_empty, List.append_nil]
        exact fun l hl => (leaf_under identified tame
          (hname.child (Name.plain_of_isIdentifier identifier)) ht l hl).of_child
            (Name.ne_empty_of_isIdentifier identifier)
      · cases hv
  | .union ty tag (some v), outer, name, _, hname, h => by
      obtain ⟨rfl, u, d, hu, rfl, ht, harm⟩ := h.of_union
      rcases harm.void_or_value with ⟨-, hv⟩ | ⟨f, _, ha, hv, h⟩
      · cases hv
      · cases hv
        have identifier := identified.tag u (Schema.mem_of_union? hu)
        have own := identified.field f (Schema.mem_fields_of_union? hu ha)
        rw [node_arm hu ha]
        simp only [Written.lines_append, List.forall_mem_append]
        refine ⟨fun l hl => (leaf_under identified tame
          (hname.child (Name.plain_of_isIdentifier identifier)) ht l hl).of_child
            (Name.ne_empty_of_isIdentifier identifier), ?_⟩
        rw [ResolvedUnion.armName]
        split
        · exact node_under identified tame v hname h
        · exact fun l hl => (node_under identified tame v
            (hname.child (Name.plain_of_isIdentifier own)) h l hl).of_child
              (Name.ne_empty_of_isIdentifier own)

/-- The lines of elements are each below one of them. -/
theorem items_under (identified : w.schema.Identified) (tame : w.annotator.Tame) :
    ∀ (vs : List Value) {name : String} {elem : Ty} {i : Nat}, Name.Plain name →
      (∀ v ∈ vs, w.schema.HasType elem v) →
        ∀ l ∈ (w.items name i vs).lines, ∃ j, i ≤ j ∧ l.Under (Name.index name j)
  | [], _, _, _, _, _ => by simp [items]
  | v :: vs, name, elem, i, hname, h => by
      simp only [items, Written.lines_append, List.forall_mem_append]
      refine ⟨fun l hl => ⟨i, Nat.le_refl i, node_under identified tame v (hname.index i)
        (h v List.mem_cons_self) l hl⟩, fun l hl => ?_⟩
      obtain ⟨j, hj, under⟩ := items_under identified tame vs hname
        (fun x hx => h x (List.mem_cons_of_mem _ hx)) l hl
      exact ⟨j, Nat.le_of_succ_le hj, under⟩

/-- The lines of fields are each below one of them. -/
theorem fields_under (identified : w.schema.Identified) (tame : w.annotator.Tame) :
    ∀ (vs : List (String × Value)) {name : String} {fs : List Field}, Name.Plain name →
      w.schema.TypedFields w.schema.Knows fs vs → (∀ f ∈ fs, Name.isIdentifier f.name) →
        ∀ l ∈ (w.fields name vs).lines, ∃ f ∈ fs, l.Under (Name.child name f.name)
  | [], _, _, _, .nil, _ => by simp [fields]
  | (_, v) :: vs, name, _, hname, .cons h t, hf => by
      simp only [fields, Written.lines_append, List.forall_mem_append]
      refine ⟨fun l hl => ⟨_, List.mem_cons_self, node_under identified tame v
        (hname.child (Name.plain_of_isIdentifier (hf _ List.mem_cons_self))) h l hl⟩,
        fun l hl => ?_⟩
      obtain ⟨f, hm, under⟩ := fields_under identified tame vs hname t
        (fun f hm => hf f (List.mem_cons_of_mem _ hm)) l hl
      exact ⟨f, List.mem_cons_of_mem _ hm, under⟩

end

end Writer

end XdrText
