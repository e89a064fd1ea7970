import XdrText.Proofs.Again
import XdrText.Proofs.Frame

/-!
# XdrText — the rows that bear on a tree

Two documents agree on a name when the last rows of that name have the same text, on whatever lines
(`Table.Agrees`).  The walk looks for the names of the nodes that it leaves and, where an optional
has no row of its own, for any name that goes on from the optional's (`Schema.Reads`).  So two walks
come to the same where the documents agree on these names, whatever other rows they have
(`Reader.nodeWith_agree`).  Which names these are shows only in the tree that is left, as they
depend on the tags and the lengths in the document.

**Relevance** (`Schema.readWithin_relevant`).  A document comes to the same as another one that
agrees with it on the names under which the tree it leaves is written, on both names of each bare
source key, and on the names that mention an optional.
-/

namespace XdrText
open Text

namespace Table
variable {R : String → Prop} {t t' : Table}

/-- Two tables have the same texts under the names that count, on whatever lines. -/
def Agrees (R : String → Prop) (t t' : Table) : Prop :=
  ∀ n, R n → (t.get? n).map Row.text = (t'.get? n).map Row.text

/-- Tables that agree still agree when a name is taken from both. -/
theorem Agrees.erase (h : t.Agrees R t') (name : String) :
    Table.Agrees R (t.erase name) (t'.erase name) := by
  intro n hn
  rw [NameMap.get?_erase, NameMap.get?_erase]
  split
  · rfl
  · exact h n hn

/-- Tables that agree have the same names among those that count. -/
theorem Agrees.mem_names (h : t.Agrees R t') {n : String} (hn : R n) :
    n ∈ t.names ↔ n ∈ t'.names := by
  have same := congrArg Option.isSome (h n hn)
  rw [Option.isSome_map, Option.isSome_map] at same
  rw [← NameMap.contains_iff, ← NameMap.contains_iff, NameMap.contains, NameMap.contains, same]

/-- Tables agree on whether a name is mentioned, where all the names that mention it count. -/
theorem Agrees.mentions (h : t.Agrees R t') (hR : ∀ n, Name.Extends name n → R n) :
    t.mentions name = t'.mentions name := by
  rw [Bool.eq_iff_iff, mentions_iff, mentions_iff]
  refine exists_congr fun n => ?_
  rw [and_congr_left_iff]
  exact fun extends_ => h.mem_names (hR n extends_)

end Table

/-- Two outcomes are the same up to the lines of faults and the rows that do not count, and the
second step did not give up. -/
structure Outcome.Alike {α : Type} (R : String → Prop) (a b : Outcome α) : Prop where
  value : b.value = a.value
  rest : a.rest.Agrees R b.rest
  causes : b.faults.map LineFault.cause = a.faults.map LineFault.cause
  asked : b.asked = a.asked
  ends : b.overrun = false

namespace Reading
variable {α β : Type} {R : String → Prop} {t : Table}

/-- Where the first step does not give up, the second one comes to the same from every table that
agrees. -/
def Agree (R : String → Prop) (t : Table) (x y : Reading α) : Prop :=
  (x t).overrun = false → ∀ t', t.Agrees R t' → (x t).Alike R (y t')

/-- Rows with one text have one entry up to their lines. -/
theorem entry_cases {row row' : Row} (text : row'.text = row.text) :
    (row.entry = (.help, true) ∧ row'.entry = (.help, true)) ∨
      ∃ s mark, row.entry = (.text row.line s, mark) ∧ row'.entry = (.text row'.line s, mark) := by
  simp only [Row.entry, text]
  split
  next cs _ =>
    split
    · exact .inl ⟨rfl, rfl⟩
    · exact .inr ⟨_, _, rfl, rfl⟩
  next => exact .inr ⟨_, _, rfl, rfl⟩

/-- What a row comes to is decided by its text. -/
theorem verdict_congr {name : String} {rule : Rule α} {old : α} {row row' : Row}
    (text : row'.text = row.text) : verdict name rule old row' = verdict name rule old row := by
  rcases entry_cases text with ⟨h, h'⟩ | ⟨s, mark, h, h'⟩
  · simp only [verdict, h, h']
  · simp only [verdict, h, h']

namespace Agree
variable {x y : Reading α}

protected theorem pure (a : α) : Agree R t (pure a) (pure a) :=
  fun _ _ ht => ⟨rfl, ht, rfl, rfl, rfl⟩

/-- Two sequences of steps agree where the first steps do, and the second ones on what those
leave. -/
protected theorem bind {f g : α → Reading β} (hx : Agree R t x y)
    (hf : Agree R (x t).rest (f (x t).value) (g (x t).value)) : Agree R t (x >>= f) (y >>= g) := by
  intro ends t' ht
  obtain ⟨endsX, endsF⟩ := overrun_bind.mp ends
  have first := hx endsX t' ht
  have second := hf endsF _ first.rest
  simp only [bind, Reading.bind, first.value]
  exact ⟨second.value, second.rest, by simp [first.causes, second.causes],
    by rw [first.asked, second.asked], by rw [first.ends, second.ends]; rfl⟩

protected theorem map (f : α → β) (hx : Agree R t x y) : Agree R t (f <$> x) (f <$> y) := by
  rw [map_eq_pure_bind, map_eq_pure_bind]
  exact hx.bind (.pure _)

/-- A step that gives up need not be followed. -/
theorem giveUp (a : α) : Agree R t (Reading.giveUp a) y :=
  fun ends => by cases ends

/-- The same fault on different lines is still the same fault. -/
theorem report (line line' : Nat) (cause : Cause) :
    Agree R t (Reading.report line cause) (Reading.report line' cause) :=
  fun _ _ ht => ⟨rfl, ht, rfl, rfl, rfl⟩

theorem discard (name : String) : Agree R t (Reading.discard name) (Reading.discard name) :=
  fun _ _ ht => ⟨rfl, ht.erase name, rfl, rfl, rfl⟩

theorem mentions {name : String} (hR : ∀ n, Name.Extends name n → R n) :
    Agree R t (look fun t => Table.mentions t name) (look fun t => Table.mentions t name) :=
  fun _ _ ht => ⟨(ht.mentions hR).symm, ht, rfl, rfl, rfl⟩

/-- Rows can stand on different lines. -/
theorem lineOf {name : String} {f g : Nat → Reading α}
    (h : ∀ line, Agree R t (f (Reading.lineOf name t).value) (g line)) :
    Agree R t (Reading.lineOf name >>= f) (Reading.lineOf name >>= g) :=
  fun ends t' ht => h _ ends t' ht

/-- What a row comes to is decided by its text. -/
theorem judge? {name : String} (hR : R name) (rule : Rule α) (old : α) :
    Agree R t (judge? name rule old) (judge? name rule old) := by
  intro _ t' ht
  have same := ht name hR
  cases h : t.get? name with
  | none =>
      rw [h, eq_comm, Option.map_none, Option.map_eq_none_iff] at same
      rw [judge?_of_none h, judge?_of_none same]
      exact ⟨rfl, ht, rfl, rfl, rfl⟩
  | some row =>
      rw [h, eq_comm, Option.map_some, Option.map_eq_some_iff] at same
      obtain ⟨row', h', text⟩ := same
      rw [judge?_of_some h, judge?_of_some h', verdict_congr text]
      exact ⟨rfl, ht.erase name, by simp, rfl, rfl⟩

/-- One name that counts is judged alike in both tables. -/
theorem judge {name : String} (hR : R name) (rule : Rule α) (old : α) :
    Agree R t (judge name rule old) (judge name rule old) :=
  (judge? hR rule old).map _

end Agree
end Reading

/-! ### The names that a tree is read from -/

/-- The names under which the walk looks for a node itself. -/
def Value.Own (outer : Nat) (name : String) : Value → String → Prop
  | .leaf l, n => n = name ∨ ∃ data, l.bareSource? name = some (n, data)
  | .signature _, n => n = Name.child name "hint" ∨ n = Name.child name "signature"
  | .optional .., n => n = Name.presence name (outer + 1) ∨ Name.Extends name n
  | .seq .., n => n = Name.length name
  | _, _ => False

namespace Schema

/-- The names under which the walk looks for a node or a part of it. -/
inductive Reads (s : Schema) : Nat → String → Value → String → Prop
  | own {outer : Nat} {name n : String} {v : Value} (h : v.Own outer name n) :
      Reads s outer name v n
  | part {outer : Nat} {name m n : String} {v a : Value} (step : Step)
      (hm : s.stepName? name v step = some m) (ha : v.child? step = some a)
      (h : Reads s (step.outer outer) m a n) : Reads s outer name v n

end Schema

namespace Reader
variable {r : Reader} {R : String → Prop} {t : Table} {name : String}

theorem plainLeaf_agree (hR : R name) (l : Leaf) :
    Reading.Agree R t (r.plainLeaf name l) (r.plainLeaf name l) := by
  rw [plainLeaf_eq_judge]
  cases r.leafParser? l with
  | none => exact .pure l
  | some _ => exact .judge hR _ l

/-- A leaf looks for its name and, where it holds a bare key, for the short name. -/
theorem leaf_agree (outer : Nat) (l : Leaf)
    (hR : ∀ n, Value.Own outer name (.leaf (r.leaf name l t).value) n → R n) :
    Reading.Agree R t (r.leaf name l) (r.leaf name l) := by
  have own : R name := hR name (.inl rfl)
  cases hb : l.bareSource? name with
  | none =>
      simp only [leaf, hb]
      exact plainLeaf_agree own l
  | some p =>
      obtain ⟨short, data⟩ := p
      obtain ⟨rfl, hshort⟩ := Leaf.bareSource?_eq_some hb
      have read : r.leaf name (.fixed data) = r.bareSource name short (.fixed data) := by
        simp only [leaf, hb]
      -- a bare source key is read as one
      obtain ⟨data', same, -⟩ := @bareSource_fixed r t name short data
      have other : R short := by
        refine hR short (.inr ⟨data', ?_⟩)
        rw [read, same, Leaf.bareSource?, hshort, Option.map_some]
      rw [read, bareSource_eq_judge]
      refine (Reading.Agree.judge? other sourceRule _).bind ?_
      cases (Reading.judge? short sourceRule (.fixed data) t).value with
      | none => exact plainLeaf_agree own _
      | some l' => exact (Reading.Agree.discard name).bind (.pure l')

/-- A signature looks for the names of its two parts. -/
theorem signature_agree (hint : R (Name.child name "hint")) (body : R (Name.child name "signature"))
    (g : Key.Signature) : Reading.Agree R t (signature name g) (signature name g) := by
  rw [signature_eq_judge]
  exact (Reading.Agree.judge hint _ _).bind ((Reading.Agree.judge body _ _).bind (.pure _))

/-- An optional looks for its selector and for the names that go on from its own. -/
theorem presence_agree {depth : Nat} (own : R (Name.presence name depth))
    (below : ∀ n, Name.Extends name n → R n) :
    Reading.Agree R t (presence name depth) (presence name depth) := by
  rw [presence_eq_judge]
  refine (Reading.Agree.judge own _ _).bind ?_
  cases (Reading.judge (Name.presence name depth) (presenceRule (Name.presence name depth)) none
    t).value with
  | none => exact .mentions below
  | some present => exact .pure present

/-- A union looks for the name of its tag. -/
theorem settle_agree (own : R name) (u : ResolvedUnion) (old : Int32) :
    Reading.Agree R t (r.settle u name old) (r.settle u name old) := by
  rw [settle]
  cases r.tagParser? u.tagType with
  | none => exact .pure old
  | some _ => exact .judge own _ old

theorem grow_agree (elem : Ty) (line line' lacking : Nat) :
    Reading.Agree R t (r.grow elem line lacking) (r.grow elem line' lacking) := by
  simp only [grow]
  split
  · exact .pure []
  · cases r.schema.initial elem with
    | ok v => exact .pure _
    | error f =>
        cases f with
        | endlessType => exact .giveUp []
        | _ => exact (Reading.Agree.report line line' _).bind (.pure [])

section
variable {new new' : NodeReader}

/-- What reads new nodes comes to the same where all names count that the nodes are read from. -/
def Agree (r : Reader) (R : String → Prop) (new new' : NodeReader) : Prop :=
  ∀ outer name ty v t, r.schema.Shaped ty v →
    (∀ n, r.schema.Reads outer name (new outer name v t).value n → R n) →
      Reading.Agree R t (new outer name v) (new' outer name v)

/-- An optional stays an optional. -/
theorem optional_places {outer : Nat} {inner : Ty} {held : Option Value} :
    (r.nodeWith new outer name (.optional inner held)).Ensures fun w =>
      ∃ held', w = .optional inner held' := by
  simp only [nodeWith]
  refine .bind .trivial fun present _ => ?_
  split
  · refine .bind .trivial fun line _ => ?_
    cases held with
    | none =>
        simp only [heldWith]
        exact create_ensures (fun _ _ _ => ⟨_, rfl⟩) ⟨_, rfl⟩ fun _ _ _ => ⟨_, rfl⟩
    | some v =>
        simp only [heldWith]
        exact fun _ => ⟨_, rfl⟩
  · exact .pure ⟨none, rfl⟩

/-- A union stays a union. -/
theorem union_places {outer : Nat} {ty : String} {u : ResolvedUnion} {d : Int32}
    {arm : Option Value} (hu : r.schema.union? ty = some u) :
    (r.nodeWith new outer name (.union ty (.leaf (u.tagType.leaf d)) arm)).Ensures fun w =>
      ∃ e held, w = .union ty (.leaf (u.tagType.leaf e)) held := by
  rw [nodeWith_union hu]
  refine .bind .trivial fun line _ => .bind .trivial fun tag _ => armWith_places.mono ?_
  rintro _ (rfl | ⟨held, rfl⟩)
  · exact ⟨d, arm, rfl⟩
  · exact ⟨tag, held, rfl⟩

theorem create_agree (sound : r.schema.Sound) (hnew : r.Agree R new new') {outer : Nat} {ty : Ty}
    {line line' : Nat} {place : Option Value → Value} {old : Value}
    (hR : ∀ w, (r.create new outer name ty line place old t).value = place (some w) →
      ∀ n, r.schema.Reads outer name w n → R n) :
    Reading.Agree R t (r.create new outer name ty line place old)
      (r.create new' outer name ty line' place old) := by
  simp only [create] at hR ⊢
  cases hi : r.schema.initial ty with
  | ok v =>
      simp only [hi] at hR
      exact (hnew outer name ty v t (Schema.initial_shaped sound hi) (hR _ rfl)).map _
  | error f =>
      cases f with
      | endlessType => exact .giveUp old
      | _ => exact (Reading.Agree.report line line' _).bind (.pure _)

/-- New elements are read alike, each under its own index. -/
theorem newItems_agree (hnew : r.Agree R new new') {elem : Ty} :
    ∀ (vs : List Value) {i : Nat} {t : Table}, (∀ v ∈ vs, r.schema.Shaped elem v) →
      (∀ j w, (newItems new name i vs t).value[j]? = some w →
        ∀ n, r.schema.Reads 0 (Name.index name (i + j)) w n → R n) →
      Reading.Agree R t (newItems new name i vs) (newItems new' name i vs)
  | [], _, _, _, _ => .pure []
  | v :: vs, i, t, h, hR => by
      have own := List.forall_mem_cons.mp h
      refine (hnew _ _ elem v t own.1 fun n hn => hR 0 _ rfl n hn).bind ?_
      refine (newItems_agree hnew vs own.2 fun j w hw n hn => hR (j + 1) w hw n ?_).bind (.pure _)
      rwa [Nat.add_comm j 1, ← Nat.add_assoc]

mutual

/-- A node is read alike where the names count under which its new form is looked for. -/
theorem nodeWith_agree (sound : r.schema.Sound) (hnew : r.Agree R new new') :
    ∀ (v : Value) {outer : Nat} {name : String} {ty : Ty} {t : Table}, r.schema.Shaped ty v →
      (∀ n, r.schema.Reads outer name (r.nodeWith new outer name v t).value n → R n) →
      Reading.Agree R t (r.nodeWith new outer name v) (r.nodeWith new' outer name v)
  | .leaf l, outer, name, _, t, _, hR => by
      simp only [nodeWith] at hR ⊢
      exact (leaf_agree outer l fun n hn => hR n (.own hn)).map _
  | .signature g, outer, name, _, t, _, hR => by
      simp only [nodeWith] at hR ⊢
      exact (signature_agree (hR _ (.own (.inl rfl))) (hR _ (.own (.inr rfl))) g).map _
  | .optional inner held, outer, name, _, t, hty, hR => by
      obtain ⟨rfl, hheld⟩ := hty.of_optional
      obtain ⟨held', same⟩ : ∃ held', (r.nodeWith new outer name (.optional inner held) t).value =
        .optional inner held' := optional_places t
      have own : ∀ n, Value.Own outer name (.optional inner held') n → R n := fun n hn =>
        hR n (same ▸ .own hn)
      simp only [nodeWith] at hR ⊢
      refine (presence_agree (own _ (.inl rfl)) fun n hn => own n (.inr hn)).bind ?_
      cases present : (presence name (outer + 1) t).value with
      | false => exact .pure _
      | true =>
          simp only [bind, Reading.bind, present, if_true] at hR
          refine .lineOf fun line => heldWith_agree sound hnew held hheld fun w hw n hn => hR n ?_
          have part : r.schema.Reads outer name (.optional inner (some w)) n :=
            .part .inner rfl rfl hn
          rwa [← hw] at part
  | .array items, outer, name, _, t, .array _ h, hR => by
      rw [nodeWith_array] at hR
      rw [nodeWith_array, nodeWith_array]
      refine (elements_agree sound hnew items h (List.forall_mem_nil _) (Nat.zero_le _)
        fun j w hw n hn => hR n (.part (.elem j) rfl hw ?_)).map _
      rwa [Nat.zero_add] at hn
  | .seq elem max items, outer, name, _, t, .seq _ h, hR => by
      rw [nodeWith_seq] at hR
      rw [nodeWith_seq, nodeWith_seq]
      refine .lineOf fun line => ?_
      refine (Reading.Agree.judge? (hR _ (.own rfl)) _ _).bind ?_
      refine (grow_agree elem _ line _).bind ?_
      have grown : ∀ line lacking, (r.grow elem line lacking).Ensures fun more =>
          more.length ≤ lacking ∧ ∀ v ∈ more, r.schema.Shaped elem v :=
        fun _ _ => grow_ensures fun _ => Schema.initial_shaped sound
      obtain ⟨lacking, shaped⟩ := grown _ _ _
      refine (elements_agree sound hnew items h shaped lacking fun j w hw n hn =>
        hR n (.part (.elem j) rfl hw ?_)).map _
      rwa [Nat.zero_add] at hn
  | .struct ty fields, outer, name, _, t, .struct _ h, hR => by
      rw [nodeWith_struct] at hR
      rw [nodeWith_struct, nodeWith_struct]
      refine (fieldsWith_agree sound hnew fields h fun j f hf n hn =>
        hR n (.part (.field j) (m := Name.child name f.1) (a := f.2) ?_ ?_ hn)).map _
      · exact congrArg (Option.map fun g : String × Value => Name.child name g.1) hf
      · exact congrArg (Option.map Prod.snd) hf
  | .union ty tag arm, outer, name, _, t, h, hR => by
      obtain ⟨-, u, d, hu, rfl, -, harm⟩ := h.of_union
      -- whatever becomes of the arm, the union is read from the row of its tag
      have own : R (Name.child name u.tag) := by
        obtain ⟨e, held, same⟩ : ∃ e held, (r.nodeWith new outer name
            (.union ty (.leaf (u.tagType.leaf d)) arm) t).value =
              .union ty (.leaf (u.tagType.leaf e)) held := union_places hu t
        refine hR _ ?_
        rw [same]
        exact .part .tag (by rw [Schema.stepName?, hu, Option.map_some]) rfl (.own (.inl rfl))
      rw [nodeWith_union hu] at hR
      rw [nodeWith_union hu, nodeWith_union hu]
      refine .lineOf fun line => (settle_agree own u d).bind ?_
      replace hR : ∀ n, r.schema.Reads outer name (r.armWith new name ty u d
        (r.settle u (Name.child name u.tag) d t).value
        (Reading.lineOf (Name.child name u.tag) t).value arm
        (r.settle u (Name.child name u.tag) d t).rest).value n → R n := hR
      generalize (r.settle u (Name.child name u.tag) d t).value = e at hR ⊢
      cases ha : u.arm? e with
      | none =>
          simp only [armWith, ha]
          exact .pure _
      | some field? =>
          cases field? with
          | none =>
              simp only [armWith, ha]
              exact .pure _
          | some field =>
              have inside : ∀ w n, r.schema.Reads 0 (u.armName name field) w n →
                  r.schema.Reads outer name (.union ty (.leaf (u.tagType.leaf e)) (some w)) n :=
                fun w n hn => .part .arm (by simp [Schema.stepName?, hu, ha]) rfl hn
              rw [armWith_some ha] at hR
              rw [armWith_some ha, armWith_some ha]
              by_cases same : e = d
              · subst same
                rw [if_pos rfl] at hR ⊢
                refine heldWith_agree sound hnew arm (fun w hw => harm.of_value ha hw)
                  fun w hw n hn => hR n ?_
                rw [hw]
                exact inside w n hn
              · rw [if_neg same, heldWith] at hR ⊢
                rw [heldWith]
                refine create_agree sound hnew fun w hw n hn => hR n ?_
                rw [hw]
                exact inside w n hn

/-- An optional is read alike, whether it holds a value or one is created. -/
theorem heldWith_agree (sound : r.schema.Sound) (hnew : r.Agree R new new') :
    ∀ (held : Option Value) {outer : Nat} {name : String} {ty : Ty} {line line' : Nat}
      {place : Option Value → Value} {old : Value} {t : Table},
      (∀ v, held = some v → r.schema.Shaped ty v) →
      (∀ w, (r.heldWith new outer name place (r.create new outer name ty line place old)
        held t).value = place (some w) → ∀ n, r.schema.Reads outer name w n → R n) →
      Reading.Agree R t
        (r.heldWith new outer name place (r.create new outer name ty line place old) held)
        (r.heldWith new' outer name place (r.create new' outer name ty line' place old) held)
  | none, outer, name, ty, line, line', place, old, t, _, hR => by
      simp only [heldWith] at hR ⊢
      exact create_agree sound hnew hR
  | some v, outer, name, ty, line, line', place, old, t, hv, hR => by
      simp only [heldWith] at hR ⊢
      exact (nodeWith_agree sound hnew v (hv v rfl) (hR _ rfl)).map _

theorem elements_agree (sound : r.schema.Sound) (hnew : r.Agree R new new') :
    ∀ (olds : List Value) {name : String} {elem : Ty} {i n : Nat} {more : List Value} {t : Table},
      (∀ v ∈ olds, r.schema.Shaped elem v) → (∀ v ∈ more, r.schema.Shaped elem v) →
      more.length ≤ n - olds.length →
      (∀ j w, (r.elements new name i n olds more t).value[j]? = some w →
        ∀ n, r.schema.Reads 0 (Name.index name (i + j)) w n → R n) →
      Reading.Agree R t (r.elements new name i n olds more) (r.elements new' name i n olds more)
  | [], name, elem, i, n, more, t, _, hm, _, hR => by
      have first : ∀ new, r.elements new name i n [] more = newItems new name i more := by
        intro new
        simp [elements, itemsWith_nil]
      rw [first] at hR
      rw [first, first]
      exact newItems_agree hnew more hm hR
  | o :: olds, name, elem, i, 0, more, t, _, _, hn, _ => by
      obtain rfl : more = [] := List.eq_nil_of_length_eq_zero (by omega)
      rw [elements_zero, elements_zero]
      exact .pure []
  | o :: olds, name, elem, i, n + 1, more, t, ho, hm, hn, hR => by
      have own := List.forall_mem_cons.mp ho
      rw [elements_old] at hR
      rw [elements_old, elements_old]
      rw [List.length_cons] at hn
      refine (nodeWith_agree sound hnew o own.1 fun n hn => hR 0 _ rfl n hn).bind ?_
      refine (elements_agree sound hnew olds own.2 hm (by omega)
        fun j w hw n hn => hR (j + 1) w hw n ?_).bind (.pure _)
      rwa [Nat.add_comm j 1, ← Nat.add_assoc]

/-- Fields are read alike, each from what the ones before it leave. -/
theorem fieldsWith_agree (sound : r.schema.Sound) (hnew : r.Agree R new new') :
    ∀ (vs : List (String × Value)) {name : String} {fs : List Field} {t : Table},
      r.schema.TypedFields (fun _ _ => True) fs vs →
      (∀ (j : Nat) f, (r.fieldsWith new name vs t).value[j]? = some f →
        ∀ n, r.schema.Reads 0 (Name.child name f.1) f.2 n → R n) →
      Reading.Agree R t (r.fieldsWith new name vs) (r.fieldsWith new' name vs)
  | [], name, _, t, .nil, _ => by
      simp only [fieldsWith]
      exact .pure []
  | (_, v) :: vs, name, _, t, .cons h hvs, hR => by
      simp only [fieldsWith] at hR ⊢
      refine (nodeWith_agree sound hnew v h fun n hn => hR 0 _ rfl n hn).bind ?_
      exact (fieldsWith_agree sound hnew vs hvs fun j f hf n hn =>
        hR (j + 1) f hf n hn).bind (.pure _)

end

/-- New nodes may be nested more deeply in the second walk. -/
theorem newer_agree (sound : r.schema.Sound) {limit limit' : Nat} (le : limit ≤ limit') :
    r.Agree R (r.newer limit) (r.newer limit') := by
  induction limit generalizing limit' with
  | zero => exact fun _ _ _ _ _ _ _ => .giveUp _
  | succ limit ih =>
      obtain ⟨limit', rfl⟩ := Nat.exists_eq_add_one_of_ne_zero (show limit' ≠ 0 by omega)
      intro outer name ty v t hv hR
      have node : ∀ k, r.newer (k + 1) outer name v = r.nodeWith (r.newer k) outer name v :=
        fun k => by rw [newer, node_eq]
      rw [node] at hR
      rw [node, node]
      exact nodeWith_agree sound (ih (by omega)) v hv hR

end

end Reader

/-! ### Names that are relevant -/

namespace Name

/-- A word goes on from no other name. -/
theorem Extends.eq_of_word {name n : String} (word : Word n) (h : Extends name n) : n = name := by
  have joint : ∀ c, isJoint c = true → name.toList ++ [c] <+: n.toList → False := by
    intro c hc h
    have mem : c ∈ n.toList := h.subset (by simp)
    rw [word.unjoint c mem] at hc
    cases hc
  rcases h with rfl | h | h
  · rfl
  · exact (joint '.' rfl (by simpa [startsWith, List.isPrefixOf_iff_prefix] using h)).elim
  · exact (joint '[' rfl (by simpa [startsWith, List.isPrefixOf_iff_prefix] using h)).elim

theorem startsWith_child {name : String} (ne : name ≠ "") (field : String) :
    startsWith name (child name field) = true := by
  simp [startsWith, child, ne, List.isPrefixOf_iff_prefix]

end Name

namespace Schema
variable {s : Schema} {name n : String} {v : Value}

/-- A name of a bare source key in the tree, long or short. -/
def NamesSource (s : Schema) (name : String) (v : Value) (n : String) : Prop :=
  ∃ path m l short data, s.nameAt? name v path = some m ∧ v.follow? path = some (.leaf l) ∧
    l.bareSource? m = some (short, data) ∧ (n = m ∨ n = short)

/-- The name of an optional in the tree, or one that goes on from there. -/
def NamesOptional (s : Schema) (name : String) (v : Value) (n : String) : Prop :=
  ∃ path m inner held, s.nameAt? name v path = some m ∧
    v.follow? path = some (.optional inner held) ∧ Name.Extends m n

/-- The names that bear on a tree: those that it is written under, those of its bare source keys,
and those that mention its optionals. -/
def Relevant (s : Schema) (name : String) (v : Value) (n : String) : Prop :=
  n ∈ (s.write .plain name v).lines.map Line.name ∨ s.NamesSource name v n ∨
    s.NamesOptional name v n

theorem NamesSource.part {step : Step} {m : String} {a : Value}
    (hm : s.stepName? name v step = some m)
    (ha : v.child? step = some a) : s.NamesSource m a n → s.NamesSource name v n := by
  rintro ⟨path, k, l, short, data, hk, hx, hl, hn⟩
  exact ⟨step :: path, k, l, short, data, by simp [nameAt?, hm, ha, hk],
    by simp [Value.follow?, ha, hx], hl, hn⟩

theorem NamesOptional.part {step : Step} {m : String} {a : Value}
    (hm : s.stepName? name v step = some m) (ha : v.child? step = some a) :
    s.NamesOptional m a n → s.NamesOptional name v n := by
  rintro ⟨path, k, inner, held, hk, hx, hn⟩
  exact ⟨step :: path, k, inner, held, by simp [nameAt?, hm, ha, hk],
    by simp [Value.follow?, ha, hx], hn⟩

/-- The walk looks only for names that are relevant. -/
theorem Reads.relevant {w : Writer} {outer : Nat} (reads : w.schema.Reads outer name v n) {ty : Ty}
    (h : w.schema.HasType ty v) : n ∈ (w.node outer name v).lines.map Line.name ∨
      w.schema.NamesSource name v n ∨ w.schema.NamesOptional name v n := by
  induction reads generalizing ty with
  | @own outer name n v own =>
      cases v with
      | leaf l =>
          cases hb : l.bareSource? name with
          | some p =>
              refine .inr (.inl ⟨[], name, l, p.1, p.2, rfl, rfl, hb, ?_⟩)
              rcases own with rfl | ⟨data, hs⟩
              · exact .inl rfl
              · rw [hb] at hs
                exact .inr (congrArg Prod.fst (Option.some.inj hs)).symm
          | none =>
              rcases own with rfl | ⟨data, hs⟩
              · cases h with
                | leaf _ within =>
                    refine .inl ?_
                    simp only [Writer.node, Writer.leaf, hb]
                    rw [Writer.plainLeaf_names within]
                    exact List.mem_singleton_self n
              · rw [hb] at hs
                cases hs
      | signature g =>
          refine .inl ?_
          simp only [Writer.node]
          rw [Writer.signature_names]
          rcases own with rfl | rfl
          · exact List.mem_cons_self
          · exact List.mem_cons_of_mem _ List.mem_cons_self
      | optional inner held =>
          rcases own with rfl | extends_
          · cases held <;> simp [Writer.node]
          · exact .inr (.inr ⟨[], name, inner, held, rfl, rfl, extends_⟩)
      | seq elem max items =>
          cases own
          simp [Writer.node]
      | array | struct | union => cases own
  | @part outer name m n v a step hm ha _ ih =>
      obtain ⟨-, ty', hty⟩ := h.part ha name
      have below : (w.node (step.outer outer) m a).lines.Sublist (w.node outer name v).lines :=
        Writer.node_part h hm ha
      rcases ih hty with written | source | optional
      · exact .inl ((below.map Line.name).subset written)
      · exact .inr (.inl (source.part hm ha))
      · exact .inr (.inr (optional.part hm ha))

/-- A name in which no line of the tree begins, and which goes on from no other, does not bear on
it. -/
theorem not_relevant {ty : Ty} (h : s.HasType ty v) (word : Name.Word n)
    (foreign : ∀ l ∈ (s.write .plain name v).lines, Name.startsWith n l.name = false) :
    ¬ s.Relevant name v n := by
  have dotless : '.' ∉ n.toList := fun dot => absurd (word.unjoint '.' dot) (by decide)
  rintro (written | ⟨path, m, l, short, data, -, -, hl, hn⟩ | ⟨path, m, inner, held, hm, hx, hn⟩)
  · obtain ⟨l, hl, rfl⟩ := List.mem_map.mp written
    exact absurd (foreign l hl) (by simp [Name.startsWith, List.isPrefixOf_iff_prefix])
  · -- the names of a bare source key have dots
    obtain ⟨start, long, short⟩ := Name.sourceAlias?_eq_some (Leaf.bareSource?_eq_some hl).2
    rcases hn with rfl | rfl
    · exact dotless (by rw [long]; simp)
    · exact dotless (by rw [short]; simp)
  · -- the optional says under its name whether it is there
    obtain rfl := hn.eq_of_word word
    let w : Writer := ⟨s, .plain, v⟩
    obtain ⟨outer, part⟩ : ∃ outer, (w.node outer n (.optional inner held)).lines.Sublist
        (w.node 0 name v).lines := Writer.node_at h hm hx
    obtain ⟨l, hl, named⟩ : ∃ l ∈ (w.node outer n (.optional inner held)).lines,
        l.name = Name.presence n (outer + 1) := by
      cases held <;> simp [Writer.node]
    have below := foreign l (part.subset hl)
    rw [named, Name.presence, Name.startsWith_child word.ne_empty] at below
    cases below

end Schema

/-- What is wrong with a document, apart from lines without a colon. -/
def Decoded.causes (d : Decoded) : List Cause :=
  (d.faults.map LineFault.cause).filter (· ≠ .missingColon)

/-- Two readings come to the same tree, the same requests for help and the same faults of rows, on
whatever lines. -/
structure Decoded.Alike (a b : Decoded) : Prop where
  value : b.value = a.value
  asked : b.asked = a.asked
  causes : b.causes = a.causes
  complete : b.complete = a.complete

namespace Schema
variable {s : Schema}

/-- Stray lines aside, the causes are those that the walk reports. -/
theorem causes_readWithin (limit : Nat) (native name doc : String) (v : Value) :
    (s.readWithin limit native name doc v).causes =
      (((Reader.node ⟨s, native⟩ limit 0 name v (Document.table doc)).faults.map
        LineFault.cause).filter (· ≠ .missingColon)) := by
  have stray : (((Document.strayLines doc).map (LineFault.mk · .missingColon)).map
      LineFault.cause).filter (· ≠ .missingColon) = [] := by
    simp
  rw [Decoded.causes, readWithin, List.map_append, List.filter_append, stray, List.nil_append]

theorem readWithin_agree (sound : s.Sound) {ty : Ty} {v : Value} (h : s.HasType ty v)
    {limit limit' : Nat} (le : limit ≤ limit') {native name doc doc' : String} {R : String → Prop}
    (complete : (s.readWithin limit native name doc v).complete = true)
    (hR : ∀ n, s.Reads 0 name (s.readWithin limit native name doc v).value n → R n)
    (agree : (Document.table doc).Agrees R (Document.table doc')) :
    (s.readWithin limit native name doc v).Alike (s.readWithin limit' native name doc' v) := by
  have ends : (Reader.node ⟨s, native⟩ limit 0 name v (Document.table doc)).overrun = false := by
    simpa [readWithin] using complete
  obtain ⟨value, -, causes, asked, ends'⟩ := Reader.newer_agree (r := ⟨s, native⟩) (R := R) sound
    (Nat.succ_le_succ le) 0 name ty v (Document.table doc) h.shaped hR ends _ agree
  refine ⟨value, asked, ?_, ?_⟩
  · rw [causes_readWithin, causes_readWithin]
    exact congrArg (List.filter _) causes
  · rw [complete]
    exact congrArg not ends'

/-- A reading that came to an end depends on the names that bear on what it left. -/
theorem readWithin_alike (sound : s.Sound) {ty : Ty} {v : Value} (h : s.HasType ty v)
    {limit limit' : Nat} {native name doc doc' : String}
    (complete : (s.readWithin limit native name doc v).complete = true)
    (typed : s.HasType ty (s.readWithin limit native name doc v).value)
    (agree : (Document.table doc).Agrees
      (s.Relevant name (s.readWithin limit native name doc v).value) (Document.table doc'))
    (enough : limit ≤ limit' ∨ (s.readWithin limit' native name doc' v).complete = true) :
    (s.readWithin limit native name doc v).Alike (s.readWithin limit' native name doc' v) := by
  have same : ∀ {k : Nat}, limit ≤ k → (s.readWithin limit native name doc v).Alike
      (s.readWithin k native name doc' v) := fun le =>
    readWithin_agree sound h le complete
      (fun _ reads => reads.relevant (w := ⟨s, .plain, _⟩) typed) agree
  rcases Nat.le_total limit limit' with le | le
  · exact same le
  · -- given the depth of the first, the second reading comes to what it comes to already
    have ends := enough.elim (fun le' => by
      obtain rfl := Nat.le_antisymm le le'
      rw [(same le').complete, complete]) id
    have deeper := readWithin_agree (R := fun _ => True) sound h le ends (fun _ _ => trivial)
      fun _ _ => rfl
    have first := same (Nat.le_refl limit)
    exact ⟨deeper.value.symm.trans first.value, deeper.asked.symm.trans first.asked,
      deeper.causes.symm.trans first.causes, deeper.complete.symm.trans first.complete⟩

/-- Two documents that agree on the names that bear on what the first one leaves come to the same,
where the second reading may nest new nodes as deeply as the first or comes to an end itself.  The
first one has to come to an end; `Schema.read_relevant_of_fleeting` and `Envelope.read_relevant` say
where it does. -/
theorem readWithin_relevant {d : Definitions} (resolved : d.resolve = .ok s) {ty : Ty} {v : Value}
    (h : s.HasType ty v) {limit limit' : Nat} {native name doc doc' : String} {out : Decoded}
    (hout : s.readWithin limit native name doc v = out) (complete : out.complete = true)
    (typed : s.HasType ty out.value)
    (agree : (Document.table doc).Agrees (s.Relevant name out.value) (Document.table doc'))
    (enough : limit ≤ limit' ∨ (s.readWithin limit' native name doc' v).complete = true) :
    out.Alike (s.readWithin limit' native name doc' v) := by
  subst hout
  exact readWithin_alike (Definitions.resolve_sound resolved) h complete typed agree enough

/-- Lines in another order, one that a later one overwrites, a blank one and a field of nothing. -/
theorem readWithin_relevant_envelope :
    Envelope.definitions.resolve = .ok Envelope.schema ∧
      Envelope.schema.HasType Envelope.ty Envelope.initial ∧
      (Envelope.schema.readWithin 4 "native" "" "tx.fee: 7\ntx.memo.type: MEMO_ID\ntx.memo.id: 9x"
        Envelope.initial).Alike
        (Envelope.schema.readWithin 4 "native" ""
          "tx.memo.id: 9x\n\nnote: 1\ntx.fee: 1\ntx.memo.type: MEMO_ID\ntx.fee: 7"
          Envelope.initial) := by
  have typed : Envelope.schema.HasType Envelope.ty
      (Envelope.schema.readWithin 4 "native" "" "tx.fee: 7\ntx.memo.type: MEMO_ID\ntx.memo.id: 9x"
        Envelope.initial).value :=
    readWithin_typed Envelope.sound Envelope.symbolic _ _ _ Envelope.initial_hasType
      Envelope.bareSources
  have foreign : ¬ Envelope.schema.Relevant "" (Envelope.schema.readWithin 4 "native" ""
      "tx.fee: 7\ntx.memo.type: MEMO_ID\ntx.memo.id: 9x" Envelope.initial).value "note" :=
    not_relevant typed (Name.word_of_isIdentifier (by decide)) (by decide +kernel)
  have rows : (Document.table "tx.fee: 7\ntx.memo.type: MEMO_ID\ntx.memo.id: 9x").entries =
      [("tx.fee", ⟨1, " 7"⟩), ("tx.memo.id", ⟨3, " 9x"⟩), ("tx.memo.type", ⟨2, " MEMO_ID"⟩)] := by
    decide +kernel
  have rows' : (Document.table
      "tx.memo.id: 9x\n\nnote: 1\ntx.fee: 1\ntx.memo.type: MEMO_ID\ntx.fee: 7").entries =
      [("note", ⟨3, " 1"⟩), ("tx.fee", ⟨6, " 7"⟩), ("tx.memo.id", ⟨1, " 9x"⟩),
        ("tx.memo.type", ⟨5, " MEMO_ID"⟩)] := by
    decide +kernel
  refine ⟨Envelope.resolve_definitions, Envelope.initial_hasType,
    readWithin_relevant Envelope.resolve_definitions Envelope.initial_hasType rfl
      (by decide +kernel) typed (fun n hn => ?_) (.inl (Nat.le_refl 4))⟩
  have other : "note" ≠ n := by
    rintro rfl
    exact foreign hn
  simp only [NameMap.get?, rows, rows', List.find?_cons, other, decide_false]
  by_cases fee : "tx.fee" = n
  · simp [fee]
  · by_cases id : "tx.memo.id" = n
    · simp [fee, id]
    · by_cases type : "tx.memo.type" = n <;> simp [fee, id, type]

end Schema
end XdrText
