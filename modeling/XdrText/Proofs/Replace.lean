import XdrText.Lookup
import XdrText.Proofs.Envelope
import XdrText.Proofs.Place

/-!
# XdrText — another node in the place of one

After a node is put in the place that a step leads to, the step leads to that node, and every other
step to what it led to before (`Value.child?_setChild`).  So it is along a path: what was put there
is found there (`Value.follow?_replace`), what was there can be put back (`Value.replace_self`), and
what is neither on the path nor beyond it stays (`Value.follow?_replace_of_apart`).

The search for a name tries the nodes on the path to the first answer, whose names stay, and nodes
beside the path, which stay as they are.

**Update** (`Schema.find?_replace`).  A node that is found by its own name is found at the same path
whatever is put in its place.  What is put there is then the node of that name; putting back what
was there gives the tree as it was; and all nodes apart from the path stay.
-/

namespace XdrText

/-! ### Along a path -/

namespace Value

/-- The part of a node that a step leads to. -/
inductive Part : Value → Step → Value → Prop where
  | inner {ty : Ty} {a : Value} : Part (.optional ty (some a)) .inner a
  | item {items : List Value} {i : Nat} {a : Value} (h : items[i]? = some a) :
      Part (.array items) (.elem i) a
  | element {elem : Ty} {max : UInt32} {items : List Value} {i : Nat} {a : Value}
      (h : items[i]? = some a) : Part (.seq elem max items) (.elem i) a
  | field {ty name : String} {fields : List (String × Value)} {i : Nat} {a : Value}
      (h : fields[i]? = some (name, a)) : Part (.struct ty fields) (.field i) a
  | tag {ty : String} {a : Value} {arm : Option Value} : Part (.union ty a arm) .tag a
  | arm {ty : String} {tag a : Value} : Part (.union ty tag (some a)) .arm a

/-- A step leads from a node to one of its parts. -/
theorem part_of_child? {v a : Value} {step : Step} (h : v.child? step = some a) :
    Part v step a := by
  cases v with
  | leaf l => cases h
  | signature g => cases h
  | optional inner held =>
      cases step with
      | inner =>
          obtain rfl : held = some a := h
          exact .inner
      | _ => cases h
  | array items =>
      cases step with
      | elem i => exact .item h
      | _ => cases h
  | seq elem max items =>
      cases step with
      | elem i => exact .element h
      | _ => cases h
  | struct ty fields =>
      cases step with
      | field i =>
          obtain ⟨⟨name, _⟩, hf, rfl⟩ := Option.map_eq_some_iff.mp h
          exact .field hf
      | _ => cases h
  | union ty tag arm =>
      cases step with
      | tag =>
          cases h
          exact .tag
      | arm =>
          obtain rfl : arm = some a := h
          exact .arm
      | _ => cases h

section
variable {v w a : Value} {step : Step}

theorem set_self {items : List Value} {i : Nat} (h : items[i]? = some a) :
    items.set i a = items := by
  obtain ⟨hi, rfl⟩ := List.getElem?_eq_some_iff.mp h
  exact List.set_getElem_self hi

theorem modify_self {fields : List (String × Value)} {i : Nat} {name : String}
    (h : fields[i]? = some (name, a)) : (fields.modify i fun f => (f.1, a)) = fields := by
  refine List.ext_getElem? fun j => ?_
  rw [List.getElem?_modify]
  by_cases same : i = j
  · subst same
    simp [h]
  · simp [same]

/-- Putting back what is there changes nothing. -/
theorem setChild_self (h : v.child? step = some a) : setChild a v step = v := by
  cases part_of_child? h with
  | item h => exact congrArg Value.array (set_self h)
  | element h => exact congrArg (Value.seq _ _) (set_self h)
  | field h => exact congrArg (Value.struct _) (modify_self h)
  | inner | tag | arm => rfl

/-- What is put in the place of a part is the part. -/
theorem child?_setChild (h : v.child? step = some a) (w : Value) :
    (setChild w v step).child? step = some w := by
  cases part_of_child? h with
  | item h | element h =>
      obtain ⟨hi, -⟩ := List.getElem?_eq_some_iff.mp h
      exact List.getElem?_set_self hi
  | field h => simp [setChild, child?, h]
  | inner | tag | arm => rfl

/-- Every other step leads to what it led to before. -/
theorem child?_setChild_of_ne {other : Step} (h : v.child? step = some a) (ne : other ≠ step) :
    (setChild w v step).child? other = v.child? other := by
  cases part_of_child? h with
  | @item _ i | @element _ _ _ i =>
      cases other with
      | elem j => exact List.getElem?_set_ne fun same => ne (by rw [same])
      | _ => rfl
  | @field _ _ _ i =>
      cases other with
      | field j =>
          have apart : i ≠ j := fun same => ne (by rw [same])
          simp [setChild, child?, apart]
      | _ => rfl
  | inner | tag | arm => cases other <;> first | rfl | exact absurd rfl ne

variable {path : List Step}

/-- What is put in the place at the end of a path is put into the part that the path begins with. -/
theorem replace_cons (h : v.child? step = some a) :
    w.replace v (step :: path) = setChild (w.replace a path) v step := by
  rw [replace, h]

/-- What is put at the end of a path is there. -/
theorem follow?_replace (h : v.follow? path = some a) :
    (w.replace v path).follow? path = some w := by
  induction path generalizing v with
  | nil => rfl
  | cons step path ih =>
      obtain ⟨b, hb, below⟩ := Option.bind_eq_some_iff.mp h
      rw [replace_cons hb, follow?, child?_setChild hb, Option.bind_some, ih below]

/-- Putting a node in its own place changes nothing. -/
theorem replace_self (h : v.follow? path = some a) : a.replace v path = v := by
  induction path generalizing v with
  | nil => exact (Option.some.inj h).symm
  | cons step path ih =>
      obtain ⟨b, hb, below⟩ := Option.bind_eq_some_iff.mp h
      rw [replace_cons hb, ih below, setChild_self hb]

/-- What is neither on the path nor beyond it stays. -/
theorem follow?_replace_of_apart {other : List Step} (h : v.follow? path = some a)
    (before : ¬ other <+: path) (beyond : ¬ path <+: other) :
    (w.replace v path).follow? other = v.follow? other := by
  induction path generalizing v other with
  | nil => exact absurd (List.nil_prefix) beyond
  | cons step path ih =>
      obtain ⟨b, hb, below⟩ := Option.bind_eq_some_iff.mp h
      rw [replace_cons hb]
      cases other with
      | nil => exact absurd (List.nil_prefix) before
      | cons step' other =>
          by_cases same : step' = step
          · subst same
            rw [List.cons_prefix_cons, not_and] at before beyond
            rw [follow?, follow?, child?_setChild hb, hb, Option.bind_some, Option.bind_some,
              ih below (before rfl) (beyond rfl)]
          · rw [follow?, follow?, child?_setChild_of_ne hb same]

end

end Value

/-! ### The search after a change -/

namespace Schema
variable {s : Schema} {wanted name : String}

theorem orElse_eq_some_iff {α : Type} {o o' : Option α} {a : α} :
    (o <|> o') = some a ↔ o = some a ∨ o = none ∧ o' = some a := by
  cases o <;> simp

/-- A node is found by its own name, before its parts. -/
theorem find?_self (v : Value) : s.find? wanted wanted v = some [] := by
  rw [find?.eq_def, if_pos rfl]

/-- The search among elements ends in one of them, and does so whatever answers in its place. -/
theorem findItem?_eq_some {vs : List Value} {i : Nat} {path : List Step}
    (h : s.findItem? wanted name i vs = some path) :
    ∃ j a rest, path = .elem (i + j) :: rest ∧ vs[j]? = some a ∧
      s.find? wanted (Name.index name (i + j)) a = some rest ∧
      ∀ w, s.find? wanted (Name.index name (i + j)) w = some rest →
        s.findItem? wanted name i (vs.set j w) = some path := by
  induction vs generalizing i with
  | nil => cases h
  | cons v vs ih =>
      rw [findItem?] at h
      rcases orElse_eq_some_iff.mp h with here | ⟨missed, later⟩
      · obtain ⟨rest, found, same⟩ := Option.map_eq_some_iff.mp here
        refine ⟨0, v, rest, same.symm, rfl, found, fun w hw => ?_⟩
        rw [Nat.add_zero] at hw
        rw [List.set_cons_zero, findItem?, hw, Option.map_some, same]
        rfl
      · obtain ⟨j, a, rest, same, ha, found, again⟩ := ih later
        have index : i + 1 + j = i + (j + 1) := by omega
        rw [index] at same found again
        refine ⟨j + 1, a, rest, same, ha, found, fun w hw => ?_⟩
        rw [List.set_cons_succ, findItem?, missed]
        exact again w hw

theorem findField?_eq_some {fs : List (String × Value)} {i : Nat} {path : List Step}
    (h : s.findField? wanted name i fs = some path) :
    ∃ (j : Nat) (field : String) (a : Value) (rest : List Step),
      path = .field (i + j) :: rest ∧ fs[j]? = some (field, a) ∧
      s.find? wanted (Name.child name field) a = some rest ∧
      ∀ w, s.find? wanted (Name.child name field) w = some rest →
        s.findField? wanted name i (fs.modify j fun f => (f.1, w)) = some path := by
  induction fs generalizing i with
  | nil => cases h
  | cons f fs ih =>
      obtain ⟨field, v⟩ := f
      rw [findField?] at h
      rcases orElse_eq_some_iff.mp h with here | ⟨missed, later⟩
      · obtain ⟨rest, found, same⟩ := Option.map_eq_some_iff.mp here
        refine ⟨0, field, v, rest, same.symm, rfl, found, fun w hw => ?_⟩
        rw [List.modify_zero_cons, findField?, hw, Option.map_some, same]
        rfl
      · obtain ⟨j, name', a, rest, same, ha, found, again⟩ := ih later
        have index : i + 1 + j = i + (j + 1) := by omega
        rw [index] at same
        refine ⟨j + 1, name', a, rest, same, ha, found, fun w hw => ?_⟩
        rw [List.modify_succ_cons, findField?, missed]
        exact again w hw

/-- The search goes on from a node to one of its parts, and does so whatever answers in the place of
that part. -/
theorem find?_eq_cons {v : Value} {step : Step} {path : List Step}
    (h : s.find? wanted name v = some (step :: path)) :
    ∃ a n, v.child? step = some a ∧ s.stepName? name v step = some n ∧
      s.find? wanted n a = some path ∧
      ∀ w, s.find? wanted n w = some path →
        s.find? wanted name (Value.setChild w v step) = some (step :: path) := by
  have ne : name ≠ wanted := by
    rintro rfl
    rw [find?_self] at h
    cases h
  cases v with
  | leaf l =>
      rw [find?, if_neg ne] at h
      split at h <;> cases h
  | signature g =>
      rw [find?, if_neg ne] at h
      cases h
  | optional inner held =>
      cases held with
      | none =>
          rw [find?, if_neg ne] at h
          cases h
      | some v =>
          rw [find?, if_neg ne] at h
          split at h
          next may =>
            obtain ⟨rest, found, same⟩ := Option.map_eq_some_iff.mp h
            cases same
            refine ⟨v, name, rfl, rfl, found, fun w hw => ?_⟩
            rw [Value.setChild, find?, if_neg ne, if_pos may, hw, Option.map_some]
          next => cases h
  | array items =>
      rw [find?, if_neg ne] at h
      split at h
      next may =>
        obtain ⟨j, a, rest, same, ha, found, again⟩ := findItem?_eq_some h
        rw [Nat.zero_add] at same found again
        cases same
        refine ⟨a, _, ha, rfl, found, fun w hw => ?_⟩
        rw [Value.setChild, find?, if_neg ne, if_pos may, again w hw]
      next => cases h
  | seq elem max items =>
      rw [find?, if_neg ne] at h
      split at h
      next may =>
        obtain ⟨j, a, rest, same, ha, found, again⟩ := findItem?_eq_some h
        rw [Nat.zero_add] at same found again
        cases same
        refine ⟨a, _, ha, rfl, found, fun w hw => ?_⟩
        rw [Value.setChild, find?, if_neg ne, if_pos may, again w hw]
      next => cases h
  | struct ty fields =>
      rw [find?, if_neg ne] at h
      split at h
      next may =>
        obtain ⟨j, field, a, rest, same, ha, found, again⟩ := findField?_eq_some h
        rw [Nat.zero_add] at same
        cases same
        refine ⟨a, Name.child name field, ?_, ?_, found, fun w hw => ?_⟩
        · rw [Value.child?, ha, Option.map_some]
        · rw [stepName?, ha, Option.map_some]
        · rw [Value.setChild, find?, if_neg ne, if_pos may, again w hw]
      next => cases h
  | union ty tag arm =>
      rw [find?, if_neg ne] at h
      split at h
      next may =>
        cases hu : s.union? ty with
        | none =>
            rw [hu] at h
            cases h
        | some u =>
            simp only [hu] at h
            rcases orElse_eq_some_iff.mp h with inTag | ⟨missed, inArm⟩
            · obtain ⟨rest, found, same⟩ := Option.map_eq_some_iff.mp inTag
              cases same
              refine ⟨tag, Name.child name u.tag, rfl, by rw [stepName?, hu, Option.map_some],
                found, fun w hw => ?_⟩
              simp [Value.setChild, find?, ne, may, hu, hw]
            · split at inArm
              next f v hf =>
                obtain ⟨rest, found, same⟩ := Option.map_eq_some_iff.mp inArm
                cases same
                refine ⟨v, u.armName name f, rfl, by simp [stepName?, hu, hf],
                  found, fun w hw => ?_⟩
                simp [Value.setChild, find?, ne, may, hu, missed, hf, hw]
              next => cases inArm
      next => cases h

/-- What is found is there, and has a name. -/
theorem exists_of_find? {v : Value} {path : List Step} (h : s.find? wanted name v = some path) :
    ∃ a n, v.follow? path = some a ∧ s.nameAt? name v path = some n := by
  induction path generalizing name v with
  | nil => exact ⟨v, name, rfl, rfl⟩
  | cons step path ih =>
      obtain ⟨a, n, ha, hn, found, -⟩ := find?_eq_cons h
      obtain ⟨b, m, there, named⟩ := ih found
      exact ⟨b, m, by simpa [Value.follow?, ha] using there, by simpa [nameAt?, hn, ha] using named⟩

/-- A node that goes by the name wanted is found in the same place whatever is put there. -/
theorem find?_replace_eq {v : Value} {path : List Step} (h : s.find? wanted name v = some path)
    (own : s.nameAt? name v path = some wanted) (w : Value) :
    s.find? wanted name (w.replace v path) = some path := by
  induction path generalizing name v with
  | nil =>
      obtain rfl : name = wanted := Option.some.inj own
      exact find?_self w
  | cons step path ih =>
      obtain ⟨a, n, ha, hn, found, again⟩ := find?_eq_cons h
      rw [Value.replace_cons ha]
      exact again _ (ih found (by simpa [nameAt?, hn, ha] using own))

/-- Looking up and updating a node by its own name go together: the node is found in the same place
after the update, and what was put there is found under the name; putting back what was there
changes nothing; and nothing changes apart from the path. -/
theorem find?_replace {v : Value} {path : List Step} (found : s.find? wanted name v = some path)
    (own : s.nameAt? name v path = some wanted) :
    (∀ w : Value, s.find? wanted name (w.replace v path) = some path ∧
      (w.replace v path).follow? path = some w ∧
      (name = "" → s.node? wanted (w.replace v path) = some w)) ∧
    (∃ a, v.follow? path = some a ∧ a.replace v path = v) ∧
    ∀ (w : Value) (other : List Step), ¬ other <+: path → ¬ path <+: other →
      (w.replace v path).follow? other = v.follow? other := by
  obtain ⟨a, -, there, -⟩ := exists_of_find? found
  refine ⟨fun w => ?_, ⟨a, there, Value.replace_self there⟩, fun w other =>
    Value.follow?_replace_of_apart there⟩
  have again := find?_replace_eq found own w
  have put : (w.replace v path).follow? path = some w := Value.follow?_replace there
  refine ⟨again, put, ?_⟩
  rintro rfl
  rw [node?, again, Option.bind_some, put]

/-- The kind of a new envelope is its tag, and an account in its place has the same name. -/
theorem find?_replace_kind :
    Envelope.schema.find? "type" "" Envelope.initial = some [.tag] ∧
      Envelope.schema.nameAt? "" Envelope.initial [.tag] = some "type" ∧
      Envelope.schema.find? "type" ""
        ((Value.leaf (.account .zero)).replace Envelope.initial [.tag]) = some [.tag] ∧
      Envelope.schema.node? "type" ((Value.leaf (.account .zero)).replace Envelope.initial [.tag]) =
        some (.leaf (.account .zero)) ∧
      ((Value.leaf (.account .zero)).replace Envelope.initial [.tag]).follow? [.arm, .field 0] =
        Envelope.initial.follow? [.arm, .field 0] := by
  have found : Envelope.schema.find? "type" "" Envelope.initial = some [.tag] := by decide +kernel
  have own : Envelope.schema.nameAt? "" Envelope.initial [.tag] = some "type" := by decide +kernel
  obtain ⟨put, -, kept⟩ := find?_replace found own
  obtain ⟨again, -, node⟩ := put (.leaf (.account .zero))
  exact ⟨found, own, again, node rfl, kept _ _ (by decide) (by decide)⟩

end Schema
end XdrText
