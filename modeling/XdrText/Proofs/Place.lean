import XdrText.Path
import XdrText.Proofs.Typing
import XdrText.Writer

/-!
# XdrText — names along a path

Each step of a path adds to the name of the node that it leaves (`Schema.stepName?`), as the walk
over the tree does.  So the name at the end of a path (`Schema.nameAt?`) is that under which the
node there is written: its lines are among those of the tree (`Writer.node_at`).
-/

namespace XdrText

/-- The number of optionals directly around the node that a step leads to. -/
def Step.outer (outer : Nat) : Step → Nat
  | .inner => outer + 1
  | _ => 0

namespace Schema

/-- The name of the node that a step leads to, from a node with a name. -/
def stepName? (s : Schema) (name : String) : Value → Step → Option String
  | .optional .., .inner => some name
  | .array _, .elem i | .seq _ _ _, .elem i => some (Name.index name i)
  | .struct _ fields, .field i => fields[i]?.map fun f => Name.child name f.1
  | .union ty _ _, .tag => (s.union? ty).map fun u => Name.child name u.tag
  | .union ty tag _, .arm => do
    let u ← s.union? ty
    let field ← (tag.discriminant?.bind u.arm?).join
    return u.armName name field
  | _, _ => none

/-- The name of the node at the end of a path, from a node with a name. -/
def nameAt? (s : Schema) (name : String) (v : Value) : List Step → Option String
  | [] => some name
  | step :: path => do
    let n ← s.stepName? name v step
    let child ← v.child? step
    s.nameAt? n child path

section
variable {s : Schema} {known : String → Int32 → Prop}

theorem TypedFields.exists_typed :
    ∀ {fs : List Field} {vs : List (String × Value)} {i : Nat} {f : String × Value},
      s.TypedFields known fs vs → vs[i]? = some f → ∃ ty, s.Typed known ty f.2
  | _, _, 0, _, .cons h _, rfl => ⟨_, h⟩
  | _, _, _ + 1, _, .cons _ t, hf => t.exists_typed hf

/-- A part of a node of a type has a name, and a type of its own. -/
theorem Typed.part {ty : Ty} {v a : Value} {step : Step} (h : s.Typed known ty v)
    (ha : v.child? step = some a) (name : String) :
    (∃ n, s.stepName? name v step = some n) ∧ ∃ ty', s.Typed known ty' a := by
  cases v with
  | leaf l => cases ha
  | signature g => cases ha
  | optional inner held =>
      cases step with
      | inner => exact ⟨⟨name, rfl⟩, inner, h.of_optional.2 a ha⟩
      | _ => cases ha
  | array items =>
      cases step with
      | elem i =>
          cases h with
          | array _ h => exact ⟨⟨_, rfl⟩, _, h a (List.mem_of_getElem? ha)⟩
      | _ => cases ha
  | seq elem max items =>
      cases step with
      | elem i =>
          cases h with
          | seq _ h => exact ⟨⟨_, rfl⟩, _, h a (List.mem_of_getElem? ha)⟩
      | _ => cases ha
  | struct ty fields =>
      cases step with
      | field i =>
          cases h with
          | struct _ h =>
              obtain ⟨f, hf, rfl⟩ := Option.map_eq_some_iff.mp ha
              exact ⟨⟨_, by rw [stepName?, hf, Option.map_some]⟩, h.exists_typed hf⟩
      | _ => cases ha
  | union ty tag arm =>
      obtain ⟨-, u, d, hu, rfl, hd, harm⟩ := h.of_union
      cases step with
      | tag =>
          cases ha
          exact ⟨⟨_, by rw [stepName?, hu, Option.map_some]⟩, _, .leaf rfl hd⟩
      | arm =>
          obtain rfl : arm = some a := ha
          rcases harm.void_or_value with ⟨-, hv⟩ | ⟨f, _, hf, hv, h⟩
          · cases hv
          · cases hv
            exact ⟨⟨u.armName name f, by simp [stepName?, hu, hf]⟩, f.ty, h⟩
      | _ => cases ha

/-- Every node of a tree of a type has a name. -/
theorem Typed.exists_nameAt {path : List Step} {name : String} {ty : Ty} {v x : Value}
    (h : s.Typed known ty v) (hx : v.follow? path = some x) :
    ∃ n, s.nameAt? name v path = some n := by
  induction path generalizing name ty v with
  | nil => exact ⟨name, rfl⟩
  | cons step path ih =>
      obtain ⟨a, ha, hx⟩ := Option.bind_eq_some_iff.mp hx
      obtain ⟨⟨n, hn⟩, _, hty⟩ := h.part ha name
      obtain ⟨m, hm⟩ := ih hty hx
      exact ⟨m, by simpa [nameAt?, hn, ha] using hm⟩

end

end Schema

namespace Writer
variable {w : Writer} {name n : String}

/-! ### The names of leaves -/

/-- Whatever note stands behind a leaf, it has one line under its name. -/
theorem plainLeaf_names {l : Leaf} (h : l.Within w.schema.Knows) (name : String) :
    (w.plainLeaf name l).lines.map Line.name = [name] := by
  cases l with
  | «enum» ty d =>
      obtain ⟨e, he, known⟩ := h
      obtain ⟨symbol, hs⟩ := Option.isSome_iff_exists.mp known
      simp [plainLeaf, «enum», he, hs]
  | string | bytes => simp [plainLeaf]
  | asset a => cases a <;> rfl
  | _ => rfl

/-- A bare source key has its line under the short name. -/
theorem leaf_names {l : Leaf} (h : l.Within w.schema.Knows) (name : String) :
    (w.leaf name l).lines.map Line.name = [] ∨
      ∃ n, (n = name ∨ Name.sourceAlias? name = some n) ∧
        (w.leaf name l).lines.map Line.name = [n] := by
  simp only [leaf]
  split
  next => exact .inr ⟨name, .inl rfl, plainLeaf_names h name⟩
  next short data hb =>
    split
    next => exact .inr ⟨short, .inr (Leaf.bareSource?_eq_some hb).2, rfl⟩
    next => exact .inl rfl

theorem signature_names (name : String) (g : Key.Signature) :
    (w.signature name g).lines.map Line.name =
      [Name.child name "hint", Name.child name "signature"] := by
  simp [signature, Written.noted]

/-! ### Parts of a node -/

/-- The lines of an element are among those of the elements. -/
theorem items_part {a : Value} :
    ∀ (vs : List Value) {i j : Nat}, vs[j]? = some a →
      (w.node 0 (Name.index name (i + j)) a).lines.Sublist (w.items name i vs).lines
  | _ :: _, i, 0, rfl => by
      simp only [items, Written.lines_append]
      exact List.sublist_append_left _ _
  | _ :: vs, i, j + 1, ha => by
      have rest := items_part vs (i := i + 1) ha
      rw [Nat.add_right_comm, Nat.add_assoc] at rest
      simp only [items, Written.lines_append]
      exact rest.trans (List.sublist_append_right _ _)

theorem fields_part {f : String × Value} :
    ∀ (vs : List (String × Value)) {j : Nat}, vs[j]? = some f →
      (w.node 0 (Name.child name f.1) f.2).lines.Sublist (w.fields name vs).lines
  | _ :: _, 0, rfl => by
      simp only [fields, Written.lines_append]
      exact List.sublist_append_left _ _
  | (_, _) :: vs, j + 1, hf => by
      simp only [fields, Written.lines_append]
      exact (fields_part vs hf).trans (List.sublist_append_right _ _)

variable {known : String → Int32 → Prop} {outer : Nat} {ty : Ty} {v : Value}

/-- A part of a node is written under its name. -/
theorem node_part {a : Value} {step : Step} (h : w.schema.Typed known ty v)
    (hn : w.schema.stepName? name v step = some n) (ha : v.child? step = some a) :
    (w.node (step.outer outer) n a).lines.Sublist (w.node outer name v).lines := by
  cases v with
  | leaf l => cases ha
  | signature g => cases ha
  | optional inner held =>
      cases step with
      | inner =>
          cases hn
          obtain rfl : held = some a := ha
          simp only [node, Written.lines_append]
          exact List.sublist_append_right _ _
      | _ => cases ha
  | array items =>
      cases step with
      | elem i =>
          cases hn
          simp only [node]
          simpa only [Nat.zero_add, Step.outer] using items_part items (i := 0) ha
      | _ => cases ha
  | seq elem max items =>
      cases step with
      | elem i =>
          cases hn
          simp only [node, Written.lines_append, Written.lines_faultOf, List.append_nil]
          refine List.Sublist.trans ?_ (List.sublist_append_right _ _)
          simpa only [Nat.zero_add, Step.outer] using items_part items (i := 0) ha
      | _ => cases ha
  | struct ty fields =>
      cases step with
      | field i =>
          obtain ⟨f, hf, rfl⟩ := Option.map_eq_some_iff.mp ha
          simp only [Schema.stepName?, hf, Option.map_some] at hn
          cases hn
          simp only [node]
          exact fields_part fields hf
      | _ => cases ha
  | union ty tag arm =>
      obtain ⟨-, u, d, hu, rfl, -, harm⟩ := h.of_union
      cases step with
      | tag =>
          cases ha
          simp only [Schema.stepName?, hu, Option.map_some] at hn
          cases hn
          rcases harm.void_or_value with ⟨hf, rfl⟩ | ⟨f, _, hf, rfl, -⟩
          · simp [node, hu, hf]
          · simp [node, hu, hf]
      | arm =>
          obtain rfl : arm = some a := ha
          rcases harm.void_or_value with ⟨-, hv⟩ | ⟨f, _, hf, hv, -⟩
          · cases hv
          · obtain rfl : u.armName name f = n := by simpa [Schema.stepName?, hu, hf] using hn
            simp [node, hu, hf, Step.outer]
      | _ => cases ha

/-- The node at the end of a path is written under its name there. -/
theorem node_at {path : List Step} {x : Value} (h : w.schema.Typed known ty v)
    (hn : w.schema.nameAt? name v path = some n) (hx : v.follow? path = some x) :
    ∃ outer', (w.node outer' n x).lines.Sublist (w.node outer name v).lines := by
  induction path generalizing outer name ty v with
  | nil =>
      cases hn
      cases hx
      exact ⟨outer, .refl _⟩
  | cons step path ih =>
      obtain ⟨a, ha, below⟩ := Option.bind_eq_some_iff.mp hx
      obtain ⟨⟨m, hm⟩, _, hty⟩ := h.part ha name
      have part : (w.node (step.outer outer) m a).lines.Sublist (w.node outer name v).lines :=
        node_part h hm ha
      obtain ⟨inner, rest⟩ := ih hty (by simpa [Schema.nameAt?, hm, ha] using hn) below
      exact ⟨inner, rest.trans part⟩

end Writer
end XdrText
