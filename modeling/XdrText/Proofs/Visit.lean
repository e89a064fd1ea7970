import XdrText.Path
import XdrText.Writer

/-!
# XdrText — the nodes of a tree in the order in which it is written

Writing visits a node before its parts, and these one after the other (`Schema.visits`).  What is
written of a tree are the lines that the nodes visited have of their own (`Writer.lines_node`), and
each of them is at the end of the path that leads to it (`Schema.follow?_of_mem_visits`).
-/

namespace XdrText

/-- A node that writing comes to. -/
structure Visit where
  /-- The way from where the visits begin. -/
  path : List Step
  name : String
  node : Value
  /-- The number of optionals directly around the node. -/
  outer : Nat
  /-- The names of the optionals and of the unions with an inline arm that the node is in. -/
  around : List String

/-- A visit as it is seen from a step above. -/
def Visit.under (step : Step) (x : Visit) : Visit :=
  { x with path := step :: x.path }

namespace Schema
variable (s : Schema)

mutual

/-- The nodes of a tree with a name, each before its parts.  A union whose tag selects no arm is not
entered. -/
def visits (around : List String) (outer : Nat) (name : String) (v : Value) : List Visit :=
  ⟨[], name, v, outer, around⟩ ::
    match v with
    | .leaf _ | .signature _ | .optional _ none => []
    | .optional _ (some v) => (visits (name :: around) (outer + 1) name v).map (.under .inner)
    | .array items | .seq _ _ items => itemVisits around name 0 items
    | .struct _ fields => fieldVisits around name 0 fields
    | .union ty tag arm =>
      match s.union? ty with
      | none => []
      | some u =>
        match tag.discriminant?.bind u.arm? with
        | none => []
        | some field =>
          let around := if u.inline then name :: around else around
          (visits around 0 (Name.child name u.tag) tag).map (.under .tag) ++
            match field, arm with
            | some f, some v => (visits around 0 (u.armName name f) v).map (.under .arm)
            | _, _ => []

/-- The nodes in elements of which the first has index `i`. -/
def itemVisits (around : List String) (name : String) (i : Nat) : List Value → List Visit
  | [] => []
  | v :: vs =>
    (visits around 0 (Name.index name i) v).map (.under (.elem i)) ++
      itemVisits around name (i + 1) vs

/-- The nodes in fields of which the first has position `i`. -/
def fieldVisits (around : List String) (name : String) (i : Nat) :
    List (String × Value) → List Visit
  | [] => []
  | (field, v) :: fs =>
    (visits around 0 (Name.child name field) v).map (.under (.field i)) ++
      fieldVisits around name (i + 1) fs

end

/-- The first visit is that of the node itself. -/
theorem visits_eq_cons (around : List String) (outer : Nat) (name : String) (v : Value) :
    s.visits around outer name v =
      ⟨[], name, v, outer, around⟩ :: (s.visits around outer name v).tail := by
  unfold visits
  rfl

end Schema

/-! ### Lines -/

namespace Writer

/-- The lines of a node that are not those of its parts. -/
def ownLines (w : Writer) (x : Visit) : List Line :=
  match x.node with
  | .leaf l => (w.leaf x.name l).lines
  | .signature g => (w.signature x.name g).lines
  | .optional _ held =>
    [⟨Name.presence x.name (x.outer + 1), if held.isSome then "true" else "false"⟩]
  | .seq _ _ items => [⟨Name.length x.name, Nat.repr items.length⟩]
  | .array _ | .struct .. | .union .. => []

/-- A step above changes no lines. -/
theorem flatMap_under (w : Writer) (step : Step) (xs : List Visit) :
    (xs.map (.under step)).flatMap w.ownLines = xs.flatMap w.ownLines := by
  rw [List.flatMap_map]
  rfl

mutual

/-- What is written of a tree are the own lines of its nodes. -/
theorem lines_node (w : Writer) (around : List String) (outer : Nat) (name : String) :
    ∀ v : Value, (w.node outer name v).lines =
      (w.schema.visits around outer name v).flatMap w.ownLines
  | .leaf l | .signature g | .optional inner none => by
      simp [node, Schema.visits, ownLines]
  | .optional inner (some v) => by
      simp only [node, Schema.visits, Written.lines_append, List.flatMap_cons, flatMap_under,
        lines_node w (name :: around) (outer + 1) name v]
      rfl
  | .array items => by
      simp only [node, Schema.visits, List.flatMap_cons, lines_items w around name 0 items]
      rfl
  | .seq elem max items => by
      simp only [node, Schema.visits, List.flatMap_cons, Written.lines_append,
        Written.lines_faultOf, List.append_nil, lines_items w around name 0 items]
      rfl
  | .struct ty fields => by
      simp only [node, Schema.visits, List.flatMap_cons, lines_fields w around name 0 fields]
      rfl
  | .union ty tag arm => by
      simp only [node, Schema.visits, List.flatMap_cons]
      cases w.schema.union? ty with
      | none => rfl
      | some u =>
      cases tag.discriminant? with
      | none => rfl
      | some d =>
      simp only [Option.bind_some]
      cases u.arm? d with
      | none => rfl
      | some field =>
      simp only [Written.lines_append, List.flatMap_append, flatMap_under,
        ← lines_node w (if u.inline then name :: around else around) 0 (Name.child name u.tag) tag]
      refine congrArg ((w.node 0 (Name.child name u.tag) tag).lines ++ ·) ?_
      cases field with
      | none => cases arm <;> rfl
      | some f =>
        cases arm with
        | none => rfl
        | some v =>
          simp only [flatMap_under,
            ← lines_node w (if u.inline then name :: around else around) 0 (u.armName name f) v]

/-- The lines of elements are those of the nodes in them. -/
theorem lines_items (w : Writer) (around : List String) (name : String) :
    ∀ (i : Nat) (vs : List Value), (w.items name i vs).lines =
      (w.schema.itemVisits around name i vs).flatMap w.ownLines
  | _, [] => rfl
  | i, v :: vs => by
      simp only [items, Schema.itemVisits, Written.lines_append, List.flatMap_append, flatMap_under,
        lines_node w around 0 (Name.index name i) v, lines_items w around name (i + 1) vs]

/-- The lines of fields are those of the nodes in them. -/
theorem lines_fields (w : Writer) (around : List String) (name : String) :
    ∀ (i : Nat) (fs : List (String × Value)), (w.fields name fs).lines =
      (w.schema.fieldVisits around name i fs).flatMap w.ownLines
  | _, [] => rfl
  | i, (field, v) :: fs => by
      simp only [fields, Schema.fieldVisits, Written.lines_append,
        List.flatMap_append, flatMap_under,
        lines_node w around 0 (Name.child name field) v, lines_fields w around name (i + 1) fs]

end

end Writer

/-! ### Paths -/

namespace Schema

/-- A path to a part leads on as the path from the part does. -/
theorem follow?_under {v child : Value} {step : Step} (h : v.child? step = some child)
    {xs : List Visit} (hxs : ∀ x ∈ xs, child.follow? x.path = some x.node) :
    ∀ x ∈ xs.map (Visit.under step), v.follow? x.path = some x.node := by
  intro x hx
  obtain ⟨y, hy, rfl⟩ := List.mem_map.mp hx
  exact (congrArg (·.bind fun child => child.follow? y.path) h).trans (hxs y hy)

mutual

/-- A node visited is at the end of its path. -/
theorem follow?_of_mem_visits (s : Schema) (around : List String) (outer : Nat) (name : String) :
    ∀ v : Value, ∀ x ∈ s.visits around outer name v, v.follow? x.path = some x.node
  | .leaf _ | .signature _ | .optional _ none => by
      simp [visits, Value.follow?]
  | .optional inner (some v) => by
      rw [visits, List.forall_mem_cons]
      exact ⟨rfl, follow?_under rfl (follow?_of_mem_visits s (name :: around) (outer + 1) name v)⟩
  | .array items => by
      rw [visits, List.forall_mem_cons]
      exact ⟨rfl, follow?_of_mem_itemVisits s around name items 0 (.array items) fun j v hj => by
        rwa [Nat.zero_add]⟩
  | .seq elem max items => by
      rw [visits, List.forall_mem_cons]
      exact ⟨rfl, follow?_of_mem_itemVisits s around name items 0
        (.seq elem max items) fun j v hj => by
        rwa [Nat.zero_add]⟩
  | .struct ty fields => by
      rw [visits, List.forall_mem_cons]
      exact ⟨rfl, follow?_of_mem_fieldVisits s around name fields 0
        (.struct ty fields) fun j f hj => by
        rw [Nat.zero_add, Value.child?, hj, Option.map_some]⟩
  | .union ty tag arm => by
      rw [visits, List.forall_mem_cons]
      refine ⟨rfl, ?_⟩
      split
      · exact List.forall_mem_nil _
      cases tag.discriminant?.bind _ with
      | none => exact List.forall_mem_nil _
      | some field =>
      rw [List.forall_mem_append]
      refine ⟨follow?_under rfl (follow?_of_mem_visits s _ 0 _ tag), ?_⟩
      cases field with
      | none => exact List.forall_mem_nil _
      | some f =>
        cases arm with
        | none => exact List.forall_mem_nil _
        | some v => exact follow?_under rfl (follow?_of_mem_visits s _ 0 _ v)

theorem follow?_of_mem_itemVisits (s : Schema) (around : List String) (name : String) :
    ∀ (vs : List Value) (i : Nat) (whole : Value),
      (∀ j v, vs[j]? = some v → whole.child? (.elem (i + j)) = some v) →
        ∀ x ∈ s.itemVisits around name i vs, whole.follow? x.path = some x.node
  | [], _, _, _ => List.forall_mem_nil _
  | v :: vs, i, whole, h => by
      rw [itemVisits, List.forall_mem_append]
      refine ⟨follow?_under (h 0 v rfl)
        (follow?_of_mem_visits s around 0 (Name.index name i) v), ?_⟩
      refine follow?_of_mem_itemVisits s around name vs (i + 1) whole fun j w hj => ?_
      rw [Nat.add_right_comm]
      exact h (j + 1) w hj

theorem follow?_of_mem_fieldVisits (s : Schema) (around : List String) (name : String) :
    ∀ (fs : List (String × Value)) (i : Nat) (whole : Value),
      (∀ j f, fs[j]? = some f → whole.child? (.field (i + j)) = some f.2) →
        ∀ x ∈ s.fieldVisits around name i fs, whole.follow? x.path = some x.node
  | [], _, _, _ => List.forall_mem_nil _
  | (field, v) :: fs, i, whole, h => by
      rw [fieldVisits, List.forall_mem_append]
      refine ⟨follow?_under (h 0 (field, v) rfl)
        (follow?_of_mem_visits s around 0 (Name.child name field) v), ?_⟩
      refine follow?_of_mem_fieldVisits s around name fs (i + 1) whole fun j g hj => ?_
      rw [Nat.add_right_comm]
      exact h (j + 1) g hj

end

end Schema

end XdrText
