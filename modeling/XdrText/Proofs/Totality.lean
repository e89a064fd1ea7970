import XdrText.Proofs.Ending
import XdrText.Proofs.Envelope
import XdrText.Proofs.Relevant

/-!
# XdrText — which schemas are read to the end

Where a type lingers in itself at a name, one row of that name is enough to infer it again and
again: it is not one of those that are taken, and each initial value has the next one in it
(`Reader.node_overrun`).  Below the root names are no matter to this (`Schema.Lingers.rename`).

**Totality** (`Schema.readWithin_ends`).  Let every cycle of types pass through an optional or a
sequence.  If no type lingers in itself, every document is read into every tree to the end, with new
nodes nested as deeply as `Schema.nestingLimit` says, and a greater depth comes to the same.  If a
type lingers in itself below the root, there is a tree and a document for which no depth is enough.
In the schema of envelopes no type lingers in itself (`Envelope.read_complete`).

So what is said of readings that come to an end is said of every reading: that it changes nothing a
second time (`Schema.read_again_of_fleeting`, `Envelope.read_again`), and that it depends on the
rows that bear on its tree (`Schema.read_relevant_of_fleeting`, `Envelope.read_relevant`).
-/

namespace XdrText

/-! ### Walks without end -/

namespace Schema
variable {s : Schema} {name : String} {ty inner : Ty}

/-- A type in which another lingers is supplied by the schema. -/
theorem Lingers.supplies (h : s.Lingers name ty inner) : s.Supplies ty := by
  cases h with
  | inner => exact trivial
  | field hd => exact Option.isSome_iff_exists.mpr ⟨_, hd⟩
  | arm hu => exact Option.isSome_iff_exists.mpr ⟨_, hu⟩

/-- Below the root only what an optional holds and inline arms linger, whatever the name. -/
theorem Lingers.rename (h : s.Lingers name ty inner) (ne : name ≠ "") (m : String) :
    s.Lingers m ty inner := by
  cases h with
  | inner => exact .inner _
  | field hd hf hn => exact absurd hn (Name.child_ne (.inl ne))
  | arm hu hf hn =>
      refine .arm hu hf ?_
      rw [ResolvedUnion.armName] at hn ⊢
      split at hn
      next inline => rw [if_pos inline]
      next => exact absurd hn (Name.child_ne (.inl ne))

end Schema

namespace Reader
variable {r : Reader} {new : NodeReader} {t : Table} {name : String}

theorem presence_of_none {depth : Nat} (h : t.get? (Name.presence name depth) = none) :
    presence name depth t = ⟨t.mentions name, t, [], [], false⟩ := by
  simp only [presence_eq_judge, bind, Reading.bind, Reading.judge_of_none h]
  rfl

theorem settle_of_none {u : ResolvedUnion} (h : t.get? name = none) (old : Int32) :
    r.settle u name old t = ⟨old, t, [], [], false⟩ := by
  rw [settle]
  cases r.tagParser? u.tagType with
  | none => rfl
  | some _ => exact Reading.judge_of_none h

section
variable (ne : name ≠ "") (alone : t.names = [name])
include ne alone

theorem get?_child_of_alone (field : String) : t.get? (Name.child name field) = none := by
  rw [← Option.not_isSome_iff_eq_none, ← NameMap.contains, NameMap.contains_iff, alone,
    List.mem_singleton]
  exact Name.child_ne (.inl ne)

/-- What an optional holds is inferred from the row. -/
theorem optional_overrun (sound : r.schema.Sound) {outer : Nat} {inner : Ty}
    (supplied : r.schema.Supplies inner)
    (hnew : ∀ v, r.schema.initial inner = .ok v → (new (outer + 1) name v t).overrun = true) :
    (r.nodeWith new outer name (.optional inner none) t).overrun = true := by
  have mentioned : t.mentions name = true :=
    Table.mentions_iff.mpr ⟨name, alone ▸ List.mem_cons_self, .inl rfl⟩
  have unsaid : t.get? (Name.presence name (outer + 1)) = none := get?_child_of_alone ne alone _
  simp only [nodeWith, bind, Reading.bind, presence_of_none unsaid, mentioned, if_true, heldWith,
    Bool.false_or]
  refine (Bool.false_or _).trans ?_
  rw [create]
  cases hi : r.schema.initial inner with
  | ok v => exact (Reading.overrun_map _).trans (hnew v hi)
  | error f =>
      obtain rfl := Schema.endless_of_initial sound supplied hi
      rfl

/-- Where the only row is that of a node, the walk goes on at its name, by recursion on the depth of
the initial value as long as there is no new node. -/
theorem nodeWith_overrun (sound : r.schema.Sound)
    (hnew : ∀ outer ty v, Relation.TransGen (r.schema.Lingers name) ty ty →
      r.schema.initial ty = .ok v → (new outer name v t).overrun = true) :
    ∀ {n outer : Nat} {ty : Ty} {v : Value}, Relation.TransGen (r.schema.Lingers name) ty ty →
      r.schema.initialTo n ty = .ok v → (r.nodeWith new outer name v t).overrun = true
  | 0, _, _, _, _, hv => by cases hv
  | n + 1, outer, _, v, cycle, hv => by
      obtain ⟨inner, lingers, back⟩ := Relation.TransGen.head'_iff.mp cycle
      have inside := Relation.TransGen.tail' back lingers
      cases lingers with
      | inner =>
          cases hv
          obtain ⟨_, next, -⟩ := Relation.TransGen.head'_iff.mp inside
          exact optional_overrun ne alone sound next.supplies fun v => hnew _ _ v inside
      | field hd hf hn => exact absurd hn (Name.child_ne (.inl ne))
      | @arm union u f hu hf hn =>
          simp only [Schema.initialTo, Schema.fill, hu, Schema.fillUnion, hf,
            Schema.name_of_union? hu] at hv
          obtain ⟨w, hw, rfl⟩ := Except.map_eq_ok.mp hv
          have old := settle_of_none (r := r) (u := u) (get?_child_of_alone ne alone u.tag)
            (r.schema.initialTag u)
          rw [nodeWith_union hu, Reading.lineOf_bind]
          simp only [bind, Reading.bind, old, armWith_some hf, if_true, heldWith, hn, Bool.false_or,
            Reading.overrun_map]
          exact nodeWith_overrun sound hnew inside hw

/-- A node of a type that lingers in itself is not read to its end, however far new nodes are
followed. -/
theorem node_overrun (sound : r.schema.Sound) (limit : Nat) {n outer : Nat} {ty : Ty} {v : Value}
    (cycle : Relation.TransGen (r.schema.Lingers name) ty ty)
    (hv : r.schema.initialTo n ty = .ok v) :
    (r.node limit outer name v t).overrun = true := by
  induction limit generalizing n outer ty v with
  | zero => exact nodeWith_overrun ne alone sound (fun _ _ _ _ _ => rfl) cycle hv
  | succ limit ih =>
      exact nodeWith_overrun ne alone sound (fun _ _ _ cycle hv => ih cycle hv) cycle hv

end

end Reader

namespace Schema
variable {s : Schema}

/-- A type that lingers in itself can be inferred from one row without end. -/
theorem incomplete_of_lingers (sound : s.Sound) {ty : Ty}
    (cycle : Relation.TransGen (s.Lingers "a") ty ty) (native : String) (limit : Nat) :
    (s.readWithin limit native "a" "a: 1" (.optional ty none)).complete = false := by
  have alone : (Document.table "a: 1").names = ["a"] := rfl
  have ne : "a" ≠ "" := by decide
  obtain ⟨_, lingers, -⟩ := Relation.TransGen.head'_iff.mp cycle
  have endless : (Reader.node ⟨s, native⟩ limit 0 "a" (.optional ty none)
      (Document.table "a: 1")).overrun = true := by
    rw [Reader.node_eq]
    refine Reader.optional_overrun ne alone sound lingers.supplies fun v hv => ?_
    cases limit with
    | zero => rfl
    | succ limit => exact Reader.node_overrun ne alone sound limit cycle hv
  simp [readWithin, endless]

section
variable {d : Definitions} (resolved : d.resolve = .ok s) (grounded : d.Grounded)
variable (fleeting : s.Fleeting) {ty : Ty} {v : Value} (h : s.HasType ty v)
include resolved grounded fleeting h

/-- Where no type lingers in itself, every document is read to the end. -/
theorem read_complete_of_fleeting (native name doc : String) :
    (s.read native name doc v).complete = true :=
  complete_of_fleeting (Definitions.resolve_sound resolved)
    (Definitions.not_endless resolved grounded) fleeting h (Nat.le_refl _)

/-- Where no type lingers in itself, every document is read to the end, and reading it again into
what it left changes nothing. -/
theorem read_again_of_fleeting (native name doc : String) :
    (s.read native name doc v).complete = true ∧
      ∀ limit, s.readWithin limit native name doc (s.read native name doc v).value =
        s.read native name doc v := by
  have complete := read_complete_of_fleeting resolved grounded fleeting h native name doc
  exact ⟨complete, readWithin_left h complete (Definitions.resolve_sound resolved)⟩

/-- Where no type lingers in itself, two documents that agree on the names that bear on what the
first one leaves are both read to the end, and come to the same. -/
theorem read_relevant_of_fleeting {native name doc doc' : String}
    (typed : s.HasType ty (s.read native name doc v).value)
    (agree : (Document.table doc).Agrees (s.Relevant name (s.read native name doc v).value)
      (Document.table doc')) :
    (s.read native name doc v).complete = true ∧
      (s.read native name doc' v).complete = true ∧
      (s.read native name doc v).Alike (s.read native name doc' v) := by
  have complete := read_complete_of_fleeting resolved grounded fleeting h native name
  exact ⟨complete doc, complete doc',
    readWithin_alike (Definitions.resolve_sound resolved) h (complete doc) typed agree
      (.inr (complete doc'))⟩

end

/-- Where no type lingers in itself, reading comes to an end for every tree and every document.  A
type that lingers in itself below the root can be read without end. -/
theorem readWithin_ends {d : Definitions} (resolved : d.resolve = .ok s) (grounded : d.Grounded) :
    (s.Fleeting → ∀ ty v, s.HasType ty v → ∀ native name doc limit,
      s.nestingLimit (Document.table doc) v ≤ limit →
        (s.readWithin limit native name doc v).complete = true ∧
          (s.read native name doc v).Alike (s.readWithin limit native name doc v)) ∧
    ((∃ name ty, name ≠ "" ∧ Relation.TransGen (s.Lingers name) ty ty) →
      ∃ ty v name doc, s.HasType ty v ∧
        ∀ native limit, (s.readWithin limit native name doc v).complete = false) := by
  have sound := Definitions.resolve_sound resolved
  constructor
  · intro fleeting ty v h native name doc limit enough
    have ends {limit : Nat} : s.nestingLimit (Document.table doc) v ≤ limit →
        (s.readWithin limit native name doc v).complete = true :=
      complete_of_fleeting sound (Definitions.not_endless resolved grounded) fleeting h
    exact ⟨ends enough, readWithin_agree (R := fun _ => True) sound h enough (ends (Nat.le_refl _))
      (fun _ _ => trivial) fun _ _ => rfl⟩
  · rintro ⟨name, ty, ne, cycle⟩
    have cycle : Relation.TransGen (s.Lingers "a") ty ty :=
      cycle.lift id fun _ _ lingers => lingers.rename ne "a"
    exact ⟨.optional ty, .optional ty none, "a", "a: 1", .absent, incomplete_of_lingers sound cycle⟩

end Schema

/-! ### Nests -/

/-- A nest may have a nest in it, which goes by the same name. -/
def nestDefinitions : Definitions where
  enums := []
  structs := []
  unions := [⟨"Nest", "v", .int,
    [⟨[.value 0], some ⟨"inner", .optional (.union "Nest")⟩⟩], none, true⟩]

/-- The schema of nests. -/
def nest : Schema :=
  ⟨[], [], nestDefinitions.unions.map fun u => ⟨u, [(0, 0)]⟩⟩

/-- A nest has another in it as an optional, so nests are grounded. -/
theorem nest_grounded : nestDefinitions.Grounded := by
  refine Definitions.grounded_of_rank Definitions.figureRank fun ty inner holds => ?_
  cases holds with
  | elem => exact Nat.lt_succ_self _
  | field ht => cases ht
  | arm hu hf =>
      obtain rfl := List.mem_singleton.mp hu
      obtain rfl := List.mem_singleton.mp hf
      decide

/-- A nest lingers in itself under every name. -/
theorem nest_lingers (name : String) :
    Relation.TransGen (nest.Lingers name) (.union "Nest") (.union "Nest") :=
  .tail (.single (.arm rfl rfl rfl)) (.inner _)

namespace Schema

/-- A box in a box is read to the end, and some tree with a nest is not. -/
theorem readWithin_ends_figures :
    (Definitions.figureDefinitions [.symbol "BOX"]).resolve = .ok Definitions.figures ∧
      (Definitions.figureDefinitions [.symbol "BOX"]).Grounded ∧ Definitions.figures.Fleeting ∧
      Definitions.figures.HasType (.optional (.union "Figure")) (.optional (.union "Figure") none) ∧
      (∀ native, (Definitions.figures.read native "top"
        "top.shape: BOX\ntop.box.content.shape: BOX" (.optional (.union "Figure") none)).complete =
          true) ∧
      nestDefinitions.resolve = .ok nest ∧ nestDefinitions.Grounded ∧
      Relation.TransGen (nest.Lingers "top") (.union "Nest") (.union "Nest") ∧
      ∃ ty v name doc, nest.HasType ty v ∧
        ∀ native limit, (nest.readWithin limit native name doc v).complete = false := by
  have figures : (Definitions.figureDefinitions [.symbol "BOX"]).resolve =
    .ok Definitions.figures := rfl
  have boxes := Definitions.figures_grounded [.symbol "BOX"]
  have fleeting : Definitions.figures.Fleeting := fleeting_of_inline (by decide) (by decide)
  have nests : nestDefinitions.resolve = .ok nest := rfl
  refine ⟨figures, boxes, fleeting, .absent, fun native => ?_, nests,
    nest_grounded, nest_lingers _, ?_⟩
  · exact ((readWithin_ends figures boxes).1 fleeting _ _ .absent native _ _ _ (Nat.le_refl _)).1
  · exact (readWithin_ends nests nest_grounded).2 ⟨"top", _, by decide, nest_lingers _⟩

/-- A row below a nest is one below each nest in it. -/
theorem readWithin_nest :
    nestDefinitions.resolve = .ok nest ∧ nestDefinitions.Grounded ∧
      nest.HasType (.optional (.union "Nest")) (.optional (.union "Nest") none) ∧
      ∀ native limit, (nest.readWithin limit native "a" "a: 1"
        (.optional (.union "Nest") none)).complete = false := by
  have resolved : nestDefinitions.resolve = .ok nest := rfl
  exact ⟨resolved, nest_grounded, .absent,
    incomplete_of_lingers (Definitions.resolve_sound resolved) (nest_lingers "a")⟩

end Schema

namespace Envelope

theorem fleeting : schema.Fleeting :=
  Schema.fleeting_of_inline (by decide) (by decide)

section
variable {v : Value} (h : schema.HasType ty v)
include h

/-- Every document is read into every envelope to the end. -/
theorem read_complete (native name doc : String) :
    (schema.read native name doc v).complete = true :=
  Schema.complete_of_fleeting sound not_endless fleeting h (Nat.le_refl _)

/-- Every document is read into every envelope to the end, and reading it again into what it left
changes nothing. -/
theorem read_again (native name doc : String) :
    (schema.read native name doc v).complete = true ∧
      ∀ limit, schema.readWithin limit native name doc (schema.read native name doc v).value =
        schema.read native name doc v :=
  have complete := read_complete h native name doc
  ⟨complete, Schema.readWithin_left h complete sound⟩

/-- Two documents that agree on the names that bear on the envelope that the first one leaves are
both read to the end, and come to the same. -/
theorem read_relevant {native doc doc' : String}
    (agree : (Document.table doc).Agrees
      (schema.Relevant "" (schema.read native "" doc v).value) (Document.table doc')) :
    (schema.read native "" doc v).complete = true ∧
      (schema.read native "" doc' v).complete = true ∧
      (schema.read native "" doc v).Alike (schema.read native "" doc' v) :=
  ⟨read_complete h .., read_complete h .., Schema.readWithin_alike sound h (read_complete h ..)
    (Schema.readWithin_typed sound symbolic _ native doc h bareSources) agree
    (.inr (read_complete h ..))⟩

end

end Envelope

end XdrText
