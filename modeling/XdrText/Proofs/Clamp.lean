import XdrText.Proofs.Attribution
import XdrText.Proofs.Bound
import XdrText.Proofs.Revision

/-!
# XdrText — a row beyond its bound acts like one within it

Two runs of one step are compared: on a table, and on that table with the text of one row revised to
what it was cut down to (`Reading.Clamps`).  A row that is left over makes no difference, whatever
it is revised to.  A row that is cut down comes to the same in both runs, apart from the fault, and
is gone after both.  No row is judged twice, so nothing later can tell the runs apart.

**Clamping** (`Schema.read_clamped`).  Where a document has a value beyond its bound, it acts
exactly like the document with the value within the bound, but for that fault.
-/

namespace XdrText
open Text Key

/-- The text of the row is more than the bound allows, and `form` is it within the bound. -/
def Row.Exceeds (row : Row) (m : Measure) (max size : Nat) (form : String) : Prop :=
  ∃ s, row.entry.1 = .text row.line s ∧ m.Exceeds max size s form

/-- A row within its bound is read like the form, without a question. -/
theorem Row.Exceeds.entry_revised {row : Row} {m : Measure} {max size : Nat} {form : String}
    (h : row.Exceeds m max size form) :
    ∃ s, (row.revised row.line (" " ++ form)).entry = (.text row.line s, false) ∧
      trimLeft s = trimLeft form.toList := by
  obtain ⟨_, -, exceeds⟩ := h
  have text : " " ++ form = String.ofList (' ' :: form.toList) :=
    String.toList_injective (by simp)
  rw [Row.revised_of_eq rfl, text]
  exact (Measure.settled_within exceeds.cut).entry row.line

/-- The text within a bound takes up no more than its line. -/
theorem Row.Exceeds.oneLine {row : Row} {m : Measure} {max size : Nat} {form : String}
    (h : row.Exceeds m max size form) : Document.OneLine (" " ++ form) := by
  obtain ⟨_, -, exceeds⟩ := h
  exact Document.oneLine_settled (Measure.settled_within exceeds.cut)

/-- The second outcome is the first one without that fault. -/
structure Outcome.Without {α : Type} (f : LineFault) (out again : Outcome α) : Prop where
  value : again.value = out.value
  rest : again.rest = out.rest
  asked : again.asked = out.asked
  overrun : again.overrun = out.overrun
  faults : ∃ before after, out.faults = before ++ f :: after ∧ again.faults = before ++ after

namespace Reading
variable {α β : Type} {x : Reading α}

/-- A row that is left can have any text, and one that is cut down can have the text within its
bound. -/
structure Clamps (site : Site α) (x : Reading α) : Prop where
  shrinks : x.Shrinks
  left : ∀ (t : Table) (line : Nat) (text : String), t.Distinct → (x t).rest.OnLine line →
    x (t.revised line text) = { x t with rest := (x t).rest.revised line text }
  cut : ∀ t : Table, t.Distinct → ∀ f ∈ (x t).faults, ∀ field size max,
    f.cause = .tooLong field size max →
      ∃ row m form, t.get? field = some row ∧ row.line = f.line ∧ site (x t).value field max m ∧
        row.Exceeds m max size form ∧
        (row.entry.2 = false → Outcome.Without f (x t) (x (t.revised f.line (" " ++ form))))

namespace Clamps
variable {site : Site α}

/-- A step that cuts nothing down and does not look at the texts of rows. -/
theorem of_blind (shrinks : x.Shrinks)
    (whole : ∀ t, ∀ f ∈ (x t).faults, ∀ field size max, f.cause ≠ .tooLong field size max)
    (blind : ∀ (t : Table) (line : Nat) (text : String),
      x (t.revised line text) = { x t with rest := (x t).rest.revised line text }) :
    x.Clamps site where
  shrinks := shrinks
  left t line text _ _ := blind t line text
  cut t _ f hf field size max excess := absurd excess (whole t f hf field size max)

/-- A step that reports nothing and reads no text clamps nothing. -/
theorem of_silent (shrinks : x.Shrinks) (silent : ∀ t, (x t).faults = [])
    (blind : ∀ (t : Table) (line : Nat) (text : String),
      x (t.revised line text) = { x t with rest := (x t).rest.revised line text }) :
    x.Clamps site := by
  refine of_blind shrinks (fun t f hf => ?_) blind
  rw [silent t] at hf
  cases hf

theorem pure (a : α) : (Pure.pure a : Reading α).Clamps site :=
  of_silent (.of_rest_eq fun _ => rfl) (fun _ => rfl) fun _ _ _ => rfl

theorem giveUp (a : α) : (Reading.giveUp a).Clamps site :=
  of_silent (.of_rest_eq fun _ => rfl) (fun _ => rfl) fun _ _ _ => rfl

theorem mentions (name : String) {site : Site Bool} :
    (Reading.look fun t => Table.mentions t name).Clamps site :=
  of_silent (.of_rest_eq fun _ => rfl) (fun _ => rfl) (mentions_blind name)

theorem lineOf (name : String) {site : Site Nat} : (Reading.lineOf name).Clamps site :=
  of_silent (.of_rest_eq fun _ => rfl) (fun _ => rfl) (lineOf_blind name)

theorem discard (name : String) {site : Site Unit} : (Reading.discard name).Clamps site :=
  of_silent (.discard name) (fun _ => rfl) (discard_blind name)

/-- A value that cannot be made is no excess of a text. -/
theorem unmade (line : Nat) (f : SchemaFault) {site : Site Unit} :
    (Reading.report line (.misplaced (.noInitial f))).Clamps site := by
  refine of_blind (.of_rest_eq fun _ => rfl) (fun t g hg field size max => ?_) fun _ _ _ => rfl
  cases List.mem_singleton.mp hg
  nofun

/-- What the first step leaves bounded stays so whatever the second one comes to. -/
theorem bind {f : α → Reading β} {next : Site β} (hx : x.Clamps site)
    (hf : ∀ t, (f (x t).value).Clamps next)
    (pass : ∀ t t' field max m, site (x t).value field max m →
      next (f (x t).value t').value field max m) : (x >>= f).Clamps next where
  shrinks := hx.shrinks.bind fun t => (hf t).shrinks
  left t line text ht onLine := by
    have distinct := hx.shrinks.distinct ht
    -- a row that is left in the end was left by the first step
    have between : (x t).rest.OnLine line := by
      obtain ⟨name, row, hrow, same⟩ := onLine
      exact ⟨name, row, (hf t).shrinks _ name row hrow, same⟩
    have first := hx.left t line text ht between
    have second := (hf t).left (x t).rest line text distinct onLine
    simp only [Bind.bind, Reading.bind, first, second]
  cut t ht g hg field size max excess := by
    have distinct := hx.shrinks.distinct ht
    rcases List.mem_append.mp hg with hg | hg
    · -- cut down by the first step: the second one starts from the same table
      obtain ⟨row, m, form, hrow, line, bound, exceeds, without⟩ :=
        hx.cut t ht g hg field size max excess
      refine ⟨row, m, form, hrow, line, pass t _ field max m bound, exceeds, fun plain => ?_⟩
      obtain ⟨value, rest, asked, overrun, before, after, whole, less⟩ := without plain
      constructor
      · simp only [Bind.bind, Reading.bind, value, rest]
      · simp only [Bind.bind, Reading.bind, value, rest]
      · simp only [Bind.bind, Reading.bind, value, rest, asked]
      · simp only [Bind.bind, Reading.bind, value, rest, overrun]
      · refine ⟨before, after ++ (f (x t).value (x t).rest).faults, ?_, ?_⟩
        · simp [Bind.bind, Reading.bind, whole]
        · simp [Bind.bind, Reading.bind, value, rest, less]
    · -- cut down by the second step: the row was left by the first one
      obtain ⟨row, m, form, hrow, line, bound, exceeds, without⟩ :=
        (hf t).cut (x t).rest distinct g hg field size max excess
      have first := hx.left t g.line (" " ++ form) ht ⟨field, row, hrow, line⟩
      refine ⟨row, m, form, hx.shrinks t field row hrow, line, bound, exceeds, fun plain => ?_⟩
      obtain ⟨value, rest, asked, overrun, before, after, whole, less⟩ := without plain
      constructor
      · simp only [Bind.bind, Reading.bind, first, value]
      · simp only [Bind.bind, Reading.bind, first, rest]
      · simp only [Bind.bind, Reading.bind, first, asked]
      · simp only [Bind.bind, Reading.bind, first, overrun]
      · refine ⟨(x t).faults ++ before, after, ?_, ?_⟩
        · simp [Bind.bind, Reading.bind, whole]
        · simp [Bind.bind, Reading.bind, first, less]

/-- A step that cuts nothing down, and another one. -/
theorem andThen {f : α → Reading β} {next : Site β} (hx : x.Clamps .none)
    (hf : ∀ t, (f (x t).value).Clamps next) : (x >>= f).Clamps next :=
  hx.bind hf fun _ _ _ _ _ => False.elim

/-- What a step comes to may be put elsewhere, as long as its bounds go along. -/
theorem map {f : α → β} {next : Site β} (hx : x.Clamps site)
    (pass : ∀ a field max m, site a field max m → next (f a) field max m) :
    (f <$> x).Clamps next := by
  rw [map_eq_pure_bind]
  exact hx.bind (fun _ => pure _) fun t _ => pass (x t).value

section
variable {name : String} {rule : Rule α}

/-- A judgement clamps what its rule clamps, where there is a row to judge. -/
theorem judge? (h : rule.Clamps name site) (old : α) :
    (Reading.judge? name rule old).Clamps fun o field max m => ∃ a, o = some a ∧
      site a field max m where
  shrinks := .judge? name rule old
  left t line text ht onLine := by
    cases hr : t.get? name with
    | none =>
        have hr' : (t.revised line text).get? name = none := by
          rw [Table.get?_revised, hr, Option.map_none]
        rw [judge?_of_none hr, judge?_of_none hr']
    | some row =>
        rw [judge?_of_some hr] at onLine ⊢
        -- the row that is left stands on the line, so the row that is judged does not
        have apart : row.line ≠ line := fun here => ht.not_onLine_erase hr (here ▸ onLine)
        have hr' : (t.revised line text).get? name = some row := by
          rw [Table.get?_revised, hr, Option.map_some, Row.revised_of_ne apart]
        rw [judge?_of_some hr', Table.erase_revised]
  cut t ht f hf field size max excess := by
    cases hr : t.get? name with
    | none =>
        rw [judge?_of_none hr] at hf
        cases hf
    | some row =>
        rw [judge?_of_some hr] at hf ⊢
        obtain ⟨c, mem, rfl⟩ := List.mem_map.mp hf
        obtain rfl : c = .tooLong field size max := excess
        have hc : (verdict name rule old row).2.1 = some (.tooLong field size max) := by
          simpa using mem
        cases he : row.entry.1 with
        | missing | help =>
            simp only [verdict, he] at hc
            cases hc
        | text line s =>
            obtain rfl := line_of_entry he
            simp only [verdict, he] at hc
            obtain ⟨rfl, m, form, bound, exceeds, clamped⟩ := h old s field size max hc
            have cut : row.Exceeds m max size form := ⟨s, he, exceeds⟩
            refine ⟨row, m, form, hr, rfl, ⟨_, rfl, ?_⟩, cut, fun plain => ?_⟩
            · simpa only [verdict, he] using bound
            · obtain ⟨s', he', trimmed⟩ := cut.entry_revised
              have hr' : (t.revised row.line (" " ++ form)).get? field =
                  some (row.revised row.line (" " ++ form)) := by
                rw [Table.get?_revised, hr, Option.map_some]
              -- the row is gone, so its other text is gone as well
              have gone : ¬ Table.OnLine row.line (t.erase field) := ht.not_onLine_erase hr
              rw [judge?_of_some hr', Table.erase_revised, Table.revised_of_not_onLine gone]
              simp only [verdict, he, he', clamped s' trimmed, plain, hc]
              exact ⟨rfl, rfl, rfl, rfl, [], [], rfl, rfl⟩

theorem judge (h : rule.Clamps name site) (old : α) :
    (Reading.judge name rule old).Clamps site := by
  refine (judge? h old).map ?_
  rintro _ field max m ⟨a, rfl, bound⟩
  exact bound

end

end Clamps
end Reading

namespace Reader
variable {r : Reader} {name : String}

/-! ### Parts of a node -/

/-- A leaf is clamped to its own bound. -/
theorem plainLeaf_clamps (l : Leaf) : (r.plainLeaf name l).Clamps fun l field max m =>
    (Value.leaf l).bound? name = some (field, max, m) := by
  rw [plainLeaf_eq_judge]
  cases r.leafParser? l with
  | none => exact .pure l
  | some _ => exact .judge .leaf l

/-- A bare key has no bound of its own, so the short name changes nothing here. -/
theorem leaf_clamps (l : Leaf) : (r.leaf name l).Clamps fun l field max m =>
    (Value.leaf l).bound? name = some (field, max, m) := by
  simp only [leaf]
  cases l.bareSource? name with
  | none => exact plainLeaf_clamps l
  | some p =>
      simp only [bareSource_eq_judge]
      refine .bind (.judge? .source l) (fun t => ?_) fun _ _ _ _ _ => by simp [Site.none]
      cases (Reading.judge? p.1 sourceRule l t).value with
      | none => exact plainLeaf_clamps l
      | some l' => exact .andThen (.discard name) fun _ => .pure l'

/-- A signature is clamped at its body, as a hint has no bound. -/
theorem signature_clamps (g : Signature) :
    (signature name g).Clamps fun g field max m =>
      (Value.signature g).bound? name = some (field, max, m) := by
  rw [signature_eq_judge]
  refine .andThen (.judge .hint g.hint) fun _ => ?_
  refine .bind (.judge .body g.body) (fun _ => .pure _) ?_
  rintro _ _ _ _ _ ⟨rfl, rfl, rfl⟩
  rfl

theorem presence_clamps (depth : Nat) : (presence name depth).Clamps .none := by
  rw [presence_eq_judge]
  refine .andThen (.judge .presence none) fun t => ?_
  cases (Reading.judge (Name.presence name depth) (presenceRule (Name.presence name depth)) none
    t).value with
  | none => exact .mentions name
  | some present => exact .pure present

theorem settle_clamps (u : ResolvedUnion) (old : Int32) : (r.settle u name old).Clamps .none := by
  rw [settle]
  cases r.tagParser? u.tagType with
  | none => exact .pure old
  | some _ => exact .judge .tag old

/-- Elements are made without a text, so there is none to cut down. -/
theorem grow_clamps (elem : Ty) (line lacking : Nat) : (r.grow elem line lacking).Clamps .none := by
  rw [grow]
  split
  · exact .pure []
  · split
    · exact .pure _
    · exact .giveUp []
    next f _ _ => exact .andThen (.unmade line f) fun _ => .pure []

/-! ### The walk -/

/-- One of the elements, of which the first has index `i`, is bounded. -/
def boundsItems (s : Schema) (name : String) (i : Nat) : Site (List Value) :=
  fun vs field max m => ∃ j v, vs[j]? = some v ∧ s.Bounds (Name.index name (i + j)) v field max m

/-- One of the fields is bounded. -/
def boundsFields (s : Schema) (name : String) : Site (List (String × Value)) :=
  fun fs field max m =>
    ∃ (j : Nat) (f : String × Value), fs[j]? = some f ∧
      s.Bounds (Name.child name f.1) f.2 field max m

section
variable {s : Schema} {i : Nat} {v : Value} {vs : List Value} {field : String}
    {max : Nat} {m : Measure}

/-- A bound of the first element is one of the elements. -/
theorem boundsItems_head (h : s.Bounds (Name.index name i) v field max m) :
    boundsItems s name i (v :: vs) field max m :=
  ⟨0, v, rfl, h⟩

/-- A bound of a later element is one of the elements. -/
theorem boundsItems_tail (h : boundsItems s name (i + 1) vs field max m) :
    boundsItems s name i (v :: vs) field max m := by
  obtain ⟨j, w, hw, h⟩ := h
  exact ⟨j + 1, w, hw, by rwa [Nat.add_right_comm] at h⟩

end

/-- Every node is read by a step that clamps. -/
def ClampsNodes (r : Reader) (new : NodeReader) : Prop :=
  ∀ outer name ty v, r.schema.Shaped ty v → (new outer name v).Clamps (r.schema.Bounds name)

section
variable {new : NodeReader}

/-- A value that is created is clamped as it is read, wherever it is put. -/
theorem create_clamps (hnew : r.ClampsNodes new) (sound : r.schema.Sound) {outer line : Nat}
    {n : String} {ty : Ty} {place : Option Value → Value} {old : Value}
    (put : ∀ v field max m, r.schema.Bounds n v field max m →
      r.schema.Bounds name (place (some v)) field max m) :
    (r.create new outer n ty line place old).Clamps (r.schema.Bounds name) := by
  rw [create]
  split
  next v hv => exact (hnew outer n ty v (Schema.initial_shaped sound hv)).map put
  next => exact .giveUp old
  next f _ _ => exact .andThen (.unmade line f) fun _ => .pure _

theorem newItems_clamps (hnew : r.ClampsNodes new) {elem : Ty} (vs : List Value)
    (h : ∀ v ∈ vs, r.schema.Shaped elem v) (i : Nat) :
    (newItems new name i vs).Clamps (boundsItems r.schema name i) := by
  induction vs generalizing i with
  | nil => exact .pure []
  | cons v vs ih =>
      simp only [newItems]
      refine .bind (hnew 0 _ elem v (h v List.mem_cons_self)) (fun t => ?_)
        fun _ _ _ _ _ => boundsItems_head
      exact .bind (ih (fun w hw => h w (List.mem_cons_of_mem _ hw)) (i + 1)) (fun _ => .pure _)
        fun _ _ _ _ _ => boundsItems_tail

mutual

/-- The walk over a tree that is shaped like a type, by recursion on the tree. -/
theorem nodeWith_clamps (hnew : r.ClampsNodes new) (sound : r.schema.Sound) :
    ∀ (v : Value) {outer : Nat} {name : String} {ty : Ty}, r.schema.Shaped ty v →
      (r.nodeWith new outer name v).Clamps (r.schema.Bounds name)
  | .leaf l, _, _, _, _ => by
      simp only [nodeWith]
      exact (leaf_clamps l).map fun _ _ _ _ => .own
  | .signature g, _, _, _, _ => by
      simp only [nodeWith]
      exact (signature_clamps g).map fun _ _ _ _ => .own
  | .optional inner held, _, name, _, h => by
      have held_shaped := h.of_optional.2
      have put : ∀ v field max m, r.schema.Bounds name v field max m →
          r.schema.Bounds name (.optional inner (some v)) field max m :=
        fun _ _ _ _ => .part .inner rfl rfl
      simp only [nodeWith]
      refine .andThen (presence_clamps _) fun t => ?_
      split
      · refine .andThen (.lineOf name) fun _ => ?_
        exact heldWith_clamps hnew sound held held_shaped put (create_clamps hnew sound put)
      · exact .pure _
  | .array items, _, name, _, .array _ h => by
      rw [nodeWith_array]
      refine (elements_clamps hnew sound items (i := 0) h (Nat.zero_le _)
        (List.forall_mem_nil _)).map ?_
      rintro _ field max m ⟨j, v, hv, bound⟩
      exact bound.part (.elem j) (by rw [Nat.zero_add]; rfl) hv
  | .seq elem max items, _, name, _, .seq _ h => by
      rw [nodeWith_seq]
      refine .andThen (.lineOf _) fun _ => ?_
      refine .bind (.judge? (.count (Nat.lt_trans max.toNat_lt (by decide))) items.length)
        (fun t => ?_) ?_
      · refine .andThen (grow_clamps _ _ _) fun t' => ?_
        have grown := fun line lacking =>
          @grow_ensures r elem line lacking _ (fun v => Schema.initial_shaped sound) t'
        refine (elements_clamps hnew sound items (i := 0) h (grown _ _).1 (grown _ _).2).map ?_
        rintro _ field bound m ⟨j, v, hv, bounded⟩
        exact bounded.part (.elem j) (by rw [Nat.zero_add]; rfl) hv
      · rintro t t' _ _ _ ⟨_, _, rfl, rfl, rfl⟩
        exact .own rfl
  | .struct _ fields, _, name, _, .struct _ h => by
      rw [nodeWith_struct]
      refine (fieldsWith_clamps hnew sound fields h).map ?_
      rintro _ field max m ⟨j, f, hf, bound⟩
      exact bound.part (.field j) (by rw [Schema.stepName?, hf, Option.map_some])
        (by rw [Value.child?, hf, Option.map_some])
  | .union ty tag arm, _, name, _, h => by
      obtain ⟨-, u, d, hu, rfl, -, harm⟩ := h.of_union
      rw [nodeWith_union hu]
      refine .andThen (.lineOf _) fun _ => .andThen (settle_clamps u d) fun t => ?_
      generalize (r.settle u (Name.child name u.tag) d t).value = e
      cases ha : u.arm? e with
      | none =>
          simp only [armWith, ha]
          exact .pure _
      | some field? =>
          cases field? with
          | none =>
              simp only [armWith, ha]
              exact .pure _
          | some f =>
              have put : ∀ v field max m, r.schema.Bounds (u.armName name f) v field max m →
                  r.schema.Bounds name (.union ty (.leaf (u.tagType.leaf e)) (some v))
                    field max m :=
                fun _ _ _ _ => .part .arm (by simp [Schema.stepName?, hu, ha]) rfl
              rw [armWith_some ha]
              by_cases same : e = d
              · subst same
                rw [if_pos rfl]
                exact heldWith_clamps hnew sound arm (fun w hw => harm.of_value ha hw) put
                  (create_clamps hnew sound put)
              · rw [if_neg same, heldWith]
                exact create_clamps hnew sound put

/-- An optional is clamped at the value that it holds or that is created for it. -/
theorem heldWith_clamps (hnew : r.ClampsNodes new) (sound : r.schema.Sound) :
    ∀ (held : Option Value) {outer : Nat} {n name : String} {ty : Ty} {place : Option Value → Value}
      {otherwise : Reading Value}, (∀ v, held = some v → r.schema.Shaped ty v) →
      (∀ v field max m, r.schema.Bounds n v field max m →
        r.schema.Bounds name (place (some v)) field max m) →
      otherwise.Clamps (r.schema.Bounds name) →
      (r.heldWith new outer n place otherwise held).Clamps (r.schema.Bounds name)
  | none, _, _, _, _, _, _, _, _, h => by
      simp only [heldWith]
      exact h
  | some v, _, _, _, _, _, _, hv, put, _ => by
      simp only [heldWith]
      exact (nodeWith_clamps hnew sound v (hv v rfl)).map put

/-- Elements are clamped at those that stay and at those that are new. -/
theorem elements_clamps (hnew : r.ClampsNodes new) (sound : r.schema.Sound) :
    ∀ (olds : List Value) {name : String} {elem : Ty} {i n : Nat} {more : List Value},
      (∀ v ∈ olds, r.schema.Shaped elem v) → more.length ≤ n - olds.length →
      (∀ v ∈ more, r.schema.Shaped elem v) →
      (r.elements new name i n olds more).Clamps (boundsItems r.schema name i)
  | [], name, elem, i, n, more, _, _, hm => by
      have only : r.elements new name i n [] more = newItems new name i more := by
        simp [elements, itemsWith_nil]
      rw [only]
      exact newItems_clamps hnew more hm i
  | _ :: _, _, _, _, 0, more, _, lack, _ => by
      obtain rfl : more = [] := List.eq_nil_of_length_eq_zero (by omega)
      rw [elements_zero]
      exact .pure []
  | o :: olds, name, elem, i, n + 1, more, h, lack, hm => by
      rw [List.length_cons] at lack
      rw [elements_old]
      refine .bind (nodeWith_clamps hnew sound o (h o List.mem_cons_self)) (fun t => ?_)
        fun _ _ _ _ _ => boundsItems_head
      exact .bind (elements_clamps hnew sound olds (fun w hw => h w (List.mem_cons_of_mem _ hw))
        (by omega) hm) (fun _ => .pure _) fun _ _ _ _ _ => boundsItems_tail

theorem fieldsWith_clamps (hnew : r.ClampsNodes new) (sound : r.schema.Sound) :
    ∀ (vs : List (String × Value)) {name : String} {fs : List Field},
      r.schema.TypedFields (fun _ _ => True) fs vs →
      (r.fieldsWith new name vs).Clamps (boundsFields r.schema name)
  | [], _, _, .nil => by
      simp only [fieldsWith]
      exact .pure []
  | (_, v) :: vs, name, _, .cons h t => by
      simp only [fieldsWith]
      refine .bind (nodeWith_clamps hnew sound v h) (fun _ => ?_)
        fun _ _ _ _ _ bound => ⟨0, _, rfl, bound⟩
      refine .bind (fieldsWith_clamps hnew sound vs t) (fun _ => .pure _) ?_
      rintro _ _ _ _ _ ⟨j, f, hf, bound⟩
      exact ⟨j + 1, f, hf, bound⟩

end

end

/-- The walk clamps what it reads, however deeply new nodes may be nested. -/
theorem node_clamps (sound : r.schema.Sound) (limit : Nat) {outer : Nat} {name : String} {ty : Ty}
    {v : Value} (h : r.schema.Shaped ty v) :
    (r.node limit outer name v).Clamps (r.schema.Bounds name) := by
  induction limit generalizing outer name ty v with
  | zero => exact nodeWith_clamps (fun _ _ _ v _ => .giveUp v) sound v h
  | succ limit ih => exact nodeWith_clamps (fun _ _ _ _ => ih) sound v h

end Reader

/-- The second reading is the first one without that fault. -/
structure Decoded.Without (f : LineFault) (read again : Decoded) : Prop where
  value : again.value = read.value
  asked : again.asked = read.asked
  complete : again.complete = read.complete
  faults : ∃ before after, read.faults = before ++ f :: after ∧ again.faults = before ++ after

namespace Schema
variable {s : Schema}

/-- New nodes are nested as deeply whatever the texts of the rows are. -/
theorem nestingLimit_revised (t : Table) (line : Nat) (text : String) (v : Value) :
    s.nestingLimit (t.revised line text) v = s.nestingLimit t v := by
  simp only [nestingLimit, Table.revised, NameMap.names_map, NameMap.size_map]

/-- However deeply new nodes may be nested, a value beyond its bound acts like the one within it,
but for its fault. -/
theorem readWithin_clamped (sound : s.Sound) {ty : Ty} {v : Value} (h : s.Shaped ty v) (limit : Nat)
    (native name doc : String) {f : LineFault}
    (hf : f ∈ (s.readWithin limit native name doc v).faults)
    {field : String} {size max : Nat} (excess : f.cause = .tooLong field size max) :
    ∃ row m form, (Document.table doc).get? field = some row ∧ row.line = f.line ∧
      s.Bounds name (s.readWithin limit native name doc v).value field max m ∧
      row.Exceeds m max size form ∧
      (row.entry.2 = false → Decoded.Without f (s.readWithin limit native name doc v)
        (s.readWithin limit native name (Document.revise f.line (" " ++ form) doc) v)) := by
  have clamps : (Reader.node ⟨s, native⟩ limit 0 name v).Clamps (s.Bounds name) :=
    Reader.node_clamps (r := ⟨s, native⟩) sound limit h
  rcases List.mem_append.mp hf with stray | hf
  · obtain ⟨line, -, rfl⟩ := List.mem_map.mp stray
    cases excess
  · obtain ⟨row, m, form, hrow, line, bound, exceeds, without⟩ :=
      clamps.cut _ (Document.table_distinct doc) f hf field size max excess
    refine ⟨row, m, form, hrow, line, bound, exceeds, fun plain => ?_⟩
    obtain ⟨value, -, asked, overrun, before, after, whole, less⟩ := without plain
    have one := exceeds.oneLine
    rw [← Document.table_revise f.line doc one] at value asked overrun less
    refine ⟨value, asked, congrArg (!·) overrun, ?_⟩
    refine ⟨(Document.strayLines doc).map (⟨·, .missingColon⟩) ++ before, after, ?_, ?_⟩
    · simp only [readWithin, whole, List.append_assoc]
    · simp only [readWithin, less, Document.strayLines_revise f.line doc one, List.append_assoc]

/-- A value beyond its bound acts exactly like the one within it, but for its fault: the greatest
number for the length of a sequence, and the first bytes for a string, for opaque data and for the
body of a signature. -/
theorem read_clamped {d : Definitions} (resolved : d.resolve = .ok s) {ty : Ty} {v : Value}
    (h : s.HasType ty v) (native name doc : String) {f : LineFault}
    (hf : f ∈ (s.read native name doc v).faults) {field : String} {size max : Nat}
    (excess : f.cause = .tooLong field size max) :
    ∃ row m form, (Document.table doc).get? field = some row ∧ row.line = f.line ∧
      s.Bounds name (s.read native name doc v).value field max m ∧ row.Exceeds m max size form ∧
      (row.entry.2 = false → Decoded.Without f (s.read native name doc v)
        (s.read native name (Document.revise f.line (" " ++ form) doc) v)) := by
  obtain ⟨row, m, form, hrow, line, bound, exceeds, without⟩ := readWithin_clamped
    (Definitions.resolve_sound resolved) h.shaped _ native name doc hf excess
  refine ⟨row, m, form, hrow, line, bound, exceeds, fun plain => ?_⟩
  -- the names in both tables are the same, and so is how deeply new nodes may be nested
  have again : s.read native name (Document.revise f.line (" " ++ form) doc) v =
      s.readWithin (s.nestingLimit (Document.table doc) v) native name
        (Document.revise f.line (" " ++ form) doc) v := by
    rw [read, Document.table_revise f.line doc exceeds.oneLine, nestingLimit_revised]
  rw [again, read]
  exact without plain

/-- Too many operations, between a fee that cannot be read and a line without a colon. -/
def crowded : String :=
  "tx.fee: 1x\ntx.operations.len: 101\nmemo"

/-- With one operation less there are no more than allowed. -/
theorem read_clamped_operations :
    Envelope.definitions.resolve = .ok Envelope.schema ∧
      Envelope.schema.HasType Envelope.ty Envelope.initial ∧
      ⟨2, .tooLong "tx.operations.len" 101 100⟩ ∈
        (Envelope.schema.read "native" "" crowded Envelope.initial).faults ∧
      ∃ row m form, (Document.table crowded).get? "tx.operations.len" = some row ∧ row.line = 2 ∧
        Envelope.schema.Bounds "" (Envelope.schema.read "native" "" crowded Envelope.initial).value
          "tx.operations.len" 100 m ∧
        row.Exceeds m 100 101 form ∧ row.entry.2 = false ∧
        Decoded.Without ⟨2, .tooLong "tx.operations.len" 101 100⟩
          (Envelope.schema.read "native" "" crowded Envelope.initial)
          (Envelope.schema.read "native" "" (Document.revise 2 (" " ++ form) crowded)
            Envelope.initial) := by
  have found : ⟨2, .tooLong "tx.operations.len" 101 100⟩ ∈
      (Envelope.schema.read "native" "" crowded Envelope.initial).faults := by decide +kernel
  have unasked : ((Document.table crowded).get? "tx.operations.len").map (·.entry.2) =
      some false := by
    decide +kernel
  obtain ⟨row, m, form, hrow, line, bound, exceeds, without⟩ :=
    read_clamped Envelope.resolve_definitions Envelope.initial_hasType "native" "" crowded found rfl
  have plain : row.entry.2 = false := by
    rw [hrow] at unasked
    exact Option.some.inj unasked
  exact ⟨Envelope.resolve_definitions, Envelope.initial_hasType, found, row, m, form, hrow, line,
    bound, exceeds, plain, without plain⟩

end Schema
end XdrText
