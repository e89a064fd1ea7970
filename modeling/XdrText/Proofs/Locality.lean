import XdrText.Envelope
import XdrText.Proofs.Replace
import XdrText.Proofs.Visit

/-!
# XdrText — what is written of a part

What is written of a tree is what is written of one of its nodes, with something before and
something behind it that does not depend on what stands in the place of the node
(`Written.Encloses`).  So it is for one step (`Writer.setChild_encloses`), and then along the path
to every node that writing comes to.  The tag of a union is no such place, since it selects what is
written beside it.

**Locality** (`Schema.write_replace`).  Whatever is put in the place of a node, well-formed or not,
the text and the faults are those of what is put there, alone under the name of the node, between
the same text and the same faults.
-/

namespace XdrText

namespace Written

/-- The order in which texts are put together does not matter, and neither does it for faults. -/
theorem append_assoc (a b c : Written) : a ++ b ++ c = a ++ (b ++ c) := by
  ext1 <;> simp

theorem empty_append (a : Written) : empty ++ a = a := by
  ext1 <;> simp

theorem append_empty (a : Written) : a ++ empty = a := by
  ext1 <;> simp

/-- The text of two parts is their texts, one after the other. -/
theorem text_append (a b : Written) : (a ++ b).text = a.text ++ b.text := by
  rw [text, lines_append, List.map_append, String.join_append]
  rfl

/-- What is written of the whole is what is written of a part between two things that stay the same,
whatever the part is. -/
def Encloses (whole part : Value → Written) : Prop :=
  ∃ before after : Written, ∀ y, whole y = before ++ part y ++ after

namespace Encloses
variable {f g h : Value → Written}

theorem refl (f : Value → Written) : Encloses f f :=
  ⟨empty, empty, fun y => by rw [empty_append, append_empty]⟩

/-- Only what is written of the whole matters, not how it is put together. -/
theorem congr (hf : Encloses f h) (same : ∀ y, g y = f y) : Encloses g h := by
  obtain rfl : g = f := funext same
  exact hf

/-- Something that is written before may be added. -/
theorem behind (before : Written) (hf : Encloses f g) : Encloses (fun y => before ++ f y) g := by
  obtain ⟨b, a, same⟩ := hf
  exact ⟨before ++ b, a, fun y => by simp only [same, append_assoc]⟩

/-- Something that is written behind may be added. -/
theorem before (after : Written) (hf : Encloses f g) : Encloses (fun y => f y ++ after) g := by
  obtain ⟨b, a, same⟩ := hf
  exact ⟨b, a ++ after, fun y => by simp only [same, append_assoc]⟩

/-- A part of a part, where the first part is made from the second. -/
theorem trans (make : Value → Value) (hf : Encloses f g) (hg : Encloses (fun y => g (make y)) h) :
    Encloses (fun y => f (make y)) h := by
  obtain ⟨b, a, same⟩ := hf
  obtain ⟨b', a', same'⟩ := hg
  refine ⟨b ++ b', a' ++ a, fun y => ?_⟩
  have same' : g (make y) = b' ++ h y ++ a' := same' y
  simp only [same, same', append_assoc]

end Encloses
end Written

/-! ### One step -/

namespace Schema
variable {s : Schema} {around : List String} {outer : Nat} {name : String} {v : Value} {x : Visit}

/-- A visit among elements is one of an element. -/
theorem exists_of_mem_itemVisits {vs : List Value} {i : Nat}
    (h : x ∈ s.itemVisits around name i vs) :
    ∃ j a y, vs[j]? = some a ∧ y ∈ s.visits around 0 (Name.index name (i + j)) a ∧
      x = y.under (.elem (i + j)) := by
  induction vs generalizing i with
  | nil => cases h
  | cons v vs ih =>
      rw [itemVisits] at h
      rcases List.mem_append.mp h with here | later
      · obtain ⟨y, hy, rfl⟩ := List.mem_map.mp here
        exact ⟨0, v, y, rfl, hy, rfl⟩
      · obtain ⟨j, a, y, ha, hy, same⟩ := ih later
        rw [Nat.add_right_comm, Nat.add_assoc] at hy same
        exact ⟨j + 1, a, y, ha, hy, same⟩

/-- A visit among fields is one of a field. -/
theorem exists_of_mem_fieldVisits {fs : List (String × Value)} {i : Nat}
    (h : x ∈ s.fieldVisits around name i fs) :
    ∃ (j : Nat) (field : String) (a : Value) (y : Visit), fs[j]? = some (field, a) ∧
      y ∈ s.visits around 0 (Name.child name field) a ∧ x = y.under (.field (i + j)) := by
  induction fs generalizing i with
  | nil => cases h
  | cons f fs ih =>
      rw [fieldVisits] at h
      rcases List.mem_append.mp h with here | later
      · obtain ⟨y, hy, rfl⟩ := List.mem_map.mp here
        exact ⟨0, f.1, f.2, y, rfl, hy, rfl⟩
      · obtain ⟨j, field, a, y, ha, hy, same⟩ := ih later
        rw [Nat.add_right_comm, Nat.add_assoc] at same
        exact ⟨j + 1, field, a, y, ha, hy, same⟩

/-- Writing comes to a node first, and to all others by way of its parts.  A tag is written only if
it stands for a number. -/
theorem visits_cases (h : x ∈ s.visits around outer name v) :
    x = ⟨[], name, v, outer, around⟩ ∨
      ∃ step a n around' y, v.child? step = some a ∧ s.stepName? name v step = some n ∧
        y ∈ s.visits around' (step.outer outer) n a ∧ x = y.under step ∧
        (step = .tag → a.discriminant?.isSome) := by
  rw [visits_eq_cons] at h
  rcases List.mem_cons.mp h with first | h
  · exact .inl first
  right
  cases v with
  | leaf l => cases h
  | signature g => cases h
  | optional inner held =>
      cases held with
      | none => cases h
      | some v =>
          rw [visits] at h
          obtain ⟨y, hy, rfl⟩ := List.mem_map.mp h
          exact ⟨.inner, v, name, _, y, rfl, rfl, hy, rfl, by rintro ⟨⟩⟩
  | array items =>
      rw [visits] at h
      obtain ⟨j, a, y, ha, hy, same⟩ := exists_of_mem_itemVisits h
      rw [Nat.zero_add] at hy same
      exact ⟨.elem j, a, _, _, y, ha, rfl, hy, same, by rintro ⟨⟩⟩
  | seq elem max items =>
      rw [visits] at h
      obtain ⟨j, a, y, ha, hy, same⟩ := exists_of_mem_itemVisits h
      rw [Nat.zero_add] at hy same
      exact ⟨.elem j, a, _, _, y, ha, rfl, hy, same, by rintro ⟨⟩⟩
  | struct ty fields =>
      rw [visits] at h
      obtain ⟨j, field, a, y, ha, hy, same⟩ := exists_of_mem_fieldVisits h
      rw [Nat.zero_add] at same
      exact ⟨.field j, a, Name.child name field, _, y, by rw [Value.child?, ha, Option.map_some],
        by rw [stepName?, ha, Option.map_some], hy, same, by rintro ⟨⟩⟩
  | union ty tag arm =>
      rw [visits, List.tail_cons] at h
      cases hu : s.union? ty with
      | none =>
          simp only [hu] at h
          cases h
      | some u =>
      simp only [hu] at h
      cases hd : tag.discriminant?.bind u.arm? with
      | none =>
          simp only [hd] at h
          cases h
      | some field =>
          simp only [hd] at h
          rcases List.mem_append.mp h with inTag | inArm
          · obtain ⟨y, hy, rfl⟩ := List.mem_map.mp inTag
            obtain ⟨d, value, -⟩ := Option.bind_eq_some_iff.mp hd
            exact ⟨.tag, tag, _, _, y, rfl, by rw [stepName?, hu, Option.map_some], hy, rfl,
              fun _ => by rw [value]; rfl⟩
          · cases field with
            | none => cases inArm
            | some f =>
                cases arm with
                | none => cases inArm
                | some v =>
                    obtain ⟨y, hy, rfl⟩ := List.mem_map.mp inArm
                    exact ⟨.arm, v, u.armName name f, _, y, rfl, by simp [stepName?, hu, hd], hy,
                      rfl, by rintro ⟨⟩⟩

/-- What stands for a number has no parts. -/
theorem path_of_discriminant (h : v.discriminant?.isSome) (hx : x ∈ s.visits around outer name v) :
    x.path = [] := by
  cases v with
  | leaf l =>
      rw [visits] at hx
      rw [List.mem_singleton.mp hx]
  | _ => cases h

end Schema

namespace Writer
open Written
variable {w : Writer} {name n : String} {outer : Nat} {v a : Value} {step : Step}

/-- An element is enclosed by the lines of the others. -/
theorem items_enclose (vs : List Value) {i j : Nat} (h : j < vs.length) :
    Encloses (fun y => w.items name i (vs.set j y)) (w.node 0 (Name.index name (i + j))) := by
  induction vs generalizing i j with
  | nil => cases h
  | cons v vs ih =>
      cases j with
      | zero => exact .before (w.items name (i + 1) vs) (.refl _)
      | succ j =>
          have rest := ih (i := i + 1) (Nat.lt_of_succ_lt_succ h)
          rw [Nat.add_right_comm, Nat.add_assoc] at rest
          exact .behind (w.node 0 (Name.index name i) v) rest

/-- A field is enclosed by the lines of the others. -/
theorem fields_enclose (fs : List (String × Value)) {j : Nat} {field : String}
    (h : fs[j]? = some (field, a)) :
    Encloses (fun y => w.fields name (fs.modify j fun f => (f.1, y)))
      (w.node 0 (Name.child name field)) := by
  induction fs generalizing j with
  | nil => cases h
  | cons f fs ih =>
      cases j with
      | zero =>
          cases h
          exact .before (w.fields name fs) (.refl _)
      | succ j => exact .behind (w.node 0 (Name.child name f.1) f.2) (ih h)

/-- A part of a node is written between the same things whatever it is, unless it is a tag. -/
theorem setChild_encloses (ha : v.child? step = some a)
    (hn : w.schema.stepName? name v step = some n) (untagged : step ≠ .tag) :
    Encloses (fun y => w.node outer name (Value.setChild y v step))
      (w.node (step.outer outer) n) := by
  cases Value.part_of_child? ha with
  | inner =>
      cases hn
      exact .behind (.line (Name.presence name (outer + 1)) "true") (.refl _)
  | @item items i _ h =>
      cases hn
      have inside := (List.getElem?_eq_some_iff.mp h).choose
      have part : Encloses (fun y => w.items name 0 (items.set i y))
          (w.node 0 (Name.index name (0 + i))) := items_enclose items inside
      rw [Nat.zero_add] at part
      exact part.congr fun y => by rw [Value.setChild, node]
  | @element elem max items i _ h =>
      cases hn
      have inside := (List.getElem?_eq_some_iff.mp h).choose
      have part : Encloses (fun y => w.items name 0 (items.set i y))
          (w.node 0 (Name.index name (0 + i))) := items_enclose items inside
      rw [Nat.zero_add] at part
      refine (Encloses.before (.faultOf name (countFault? name items.length max.toNat))
        (.behind (.line (Name.length name) (Nat.repr items.length)) part)).congr fun y => ?_
      rw [Value.setChild, node, List.length_set]
  | @field ty field fields i _ h =>
      simp only [Schema.stepName?, h, Option.map_some] at hn
      cases hn
      exact (fields_enclose fields h).congr fun y => by rw [Value.setChild, node]
  | tag => exact absurd rfl untagged
  | @arm ty tag _ =>
      obtain ⟨u, hu, hn⟩ := Option.bind_eq_some_iff.mp hn
      obtain ⟨f, hf, hn⟩ := Option.bind_eq_some_iff.mp hn
      cases hn
      obtain ⟨d, hd, harm⟩ := Option.bind_eq_some_iff.mp (Option.join_eq_some_iff.mp hf)
      refine (Encloses.behind (w.node 0 (Name.child name u.tag) tag) (.refl _)).congr fun y => ?_
      simp only [Value.setChild, node, hu, hd, harm, Step.outer]

/-! ### Along a path -/

/-- A node that writing comes to is written between the same things whatever stands in its place. -/
theorem replace_encloses {path : List Step} {around : List String} {x : Visit}
    (hx : x ∈ w.schema.visits around outer name v) (same : x.path = path)
    (untagged : path.getLast? ≠ some .tag) :
    Encloses (fun y => w.node outer name (y.replace v path)) (w.node x.outer x.name) := by
  induction path generalizing v name outer around x with
  | nil =>
      rcases Schema.visits_cases hx with rfl | ⟨step, _, _, _, y, -, -, -, rfl, -⟩
      · exact .refl _
      · cases same
  | cons step path ih =>
      rcases Schema.visits_cases hx with rfl | ⟨step', a, n, around', y, ha, hn, hy, rfl, tagged⟩
      · cases same
      obtain ⟨rfl, below⟩ : step' = step ∧ y.path = path := List.cons.inj same
      -- a tag has no parts, so the path would end there
      have other : step' ≠ .tag := by
        rintro rfl
        rw [← below, Schema.path_of_discriminant (tagged rfl) hy] at untagged
        exact untagged rfl
      have rest : path.getLast? ≠ some .tag := fun last =>
        untagged (by rw [List.getLast?_cons, last]; rfl)
      refine ((setChild_encloses ha hn other).trans (fun z => z.replace a path)
        (ih hy below rest)).congr fun z => ?_
      rw [Value.replace_cons ha]

end Writer

/-! ### The root of a tree -/

namespace Writer
variable {s : Schema} {a : Annotator} {r r' : Value}

mutual

/-- The root is written of only in the notes behind signatures. -/
theorem node_root (same : a.signature r = a.signature r') (outer : Nat) (name : String) :
    ∀ v : Value, Writer.node ⟨s, a, r⟩ outer name v = Writer.node ⟨s, a, r'⟩ outer name v
  | .leaf l => by
      rw [node, node]
      rfl
  | .signature g => by
      rw [node, node, signature, signature]
      simp only [same]
  | .optional inner none => by rw [node, node]
  | .optional inner (some v) => by rw [node, node, node_root same (outer + 1) name v]
  | .array items => by rw [node, node, items_root same name 0 items]
  | .seq elem max items => by rw [node, node, items_root same name 0 items]
  | .struct ty fields => by rw [node, node, fields_root same name fields]
  | .union ty tag arm => by
      rw [node, node]
      simp only [node_root same 0 _ tag]
      cases s.union? ty with
      | none => rfl
      | some u =>
      cases tag.discriminant? with
      | none => rfl
      | some d =>
      cases hf : u.arm? d with
      | none => simp only [hf]
      | some field =>
      simp only [hf]
      cases field with
      | none => cases arm <;> rfl
      | some f =>
        cases arm with
        | none => rfl
        | some v => simp only [node_root same 0 (u.armName name f) v]

theorem items_root (same : a.signature r = a.signature r') (name : String) :
    ∀ (i : Nat) (vs : List Value),
      Writer.items ⟨s, a, r⟩ name i vs = Writer.items ⟨s, a, r'⟩ name i vs
  | _, [] => by rw [items, items]
  | i, v :: vs => by
      rw [items, items, node_root same 0 (Name.index name i) v, items_root same name (i + 1) vs]

theorem fields_root (same : a.signature r = a.signature r') (name : String) :
    ∀ fs : List (String × Value), Writer.fields ⟨s, a, r⟩ name fs = Writer.fields ⟨s, a, r'⟩ name fs
  | [] => by rw [fields, fields]
  | (field, v) :: fs => by
      rw [fields, fields, node_root same 0 (Name.child name field) v, fields_root same name fs]

end

/-- Without notes, what is written of a node does not depend on the tree that it is in. -/
theorem node_plain (zone : Form.Zone) (r r' : Value) :
    Writer.node ⟨s, .plain zone, r⟩ = Writer.node ⟨s, .plain zone, r'⟩ := by
  have same : (Annotator.plain zone).signature r = (Annotator.plain zone).signature r' := rfl
  funext outer name v
  exact node_root same outer name v

end Writer

/-! ### Locality -/

namespace Schema

/-- Whatever stands at the end of a path that writing follows, and not only what is well-formed: the
document has what is written of it alone between the same text, and the faults are its own between
the same faults. -/
theorem write_replace (s : Schema) (zone : Form.Zone) (name : String) (v : Value) {x : Visit}
    (hx : x ∈ s.visits [] 0 name v) (untagged : x.path.getLast? ≠ some .tag) :
    ∃ (before after : String) (faultsBefore faultsAfter : List BadField), ∀ y : Value,
      (s.write (.plain zone) name (y.replace v x.path)).text =
          before ++ (Writer.node ⟨s, .plain zone, y⟩ x.outer x.name y).text ++ after ∧
        (s.write (.plain zone) name (y.replace v x.path)).faults =
          faultsBefore ++ (Writer.node ⟨s, .plain zone, y⟩ x.outer x.name y).faults ++
            faultsAfter := by
  obtain ⟨front, back, same⟩ := Writer.replace_encloses (w := ⟨s, .plain zone, v⟩) hx rfl untagged
  refine ⟨front.text, back.text, front.faults, back.faults, fun y => ?_⟩
  rw [write, Writer.node_plain zone _ v, Writer.node_plain zone y v]
  simp only [same, Written.text_append, Written.faults_append, and_self]

/-- The fee of a new envelope may be an enum that is not declared, which is a fault and no line, or
any number: the text around it is the same. -/
theorem write_replace_fee :
    let fee : List Step := [.arm, .field 0, .field 1]
    let put (l : Leaf) :=
      Envelope.schema.write .plain "" ((Value.leaf l).replace Envelope.initial fee)
    (∃ x ∈ Envelope.schema.visits [] 0 "" Envelope.initial,
        (x.path = fee ∧ x.name = "tx.fee" ∧ x.outer = 0) ∧ x.path.getLast? ≠ some .tag) ∧
      ∃ (before after : String) (faultsBefore faultsAfter : List BadField),
        ((put (.enum "Fee" 0)).text = before ++ "" ++ after ∧
          (put (.enum "Fee" 0)).faults =
            faultsBefore ++ [⟨"tx.fee", .unknownEnum "Fee"⟩] ++ faultsAfter) ∧
        (put (.uint 100)).text = before ++ "tx.fee: 100\n" ++ after ∧
          (put (.uint 100)).faults = faultsBefore ++ [] ++ faultsAfter := by
  intro fee put
  have visited : ∃ x ∈ Envelope.schema.visits [] 0 "" Envelope.initial,
      (x.path = fee ∧ x.name = "tx.fee" ∧ x.outer = 0) ∧ x.path.getLast? ≠ some .tag := by
    decide +kernel
  refine ⟨visited, ?_⟩
  obtain ⟨x, hx, ⟨path, name, outer⟩, untagged⟩ := visited
  obtain ⟨before, after, faultsBefore, faultsAfter, same⟩ :=
    write_replace Envelope.schema Form.Zone.utc "" Envelope.initial hx untagged
  rw [path, name, outer] at same
  exact ⟨before, after, faultsBefore, faultsAfter, same (.leaf (.enum "Fee" 0)),
    same (.leaf (.uint 100))⟩

end Schema
end XdrText
