import XdrText.Proofs.Attribution
import XdrText.Proofs.Query

/-!
# XdrText — a row that is refused acts like a question

Two runs of one step are compared: on a table, and on that table with a question in the row of one
line (`Reading.Spares`).  A row that is left over makes no difference.  A row that is refused makes
none either, apart from the fault: what is there stays in both runs, and the row is gone after both.
No row is judged twice, so nothing later can tell the runs apart.

**Refusal** (`Schema.readWithin_query`).  A line that cannot be read, that has a tag without an arm,
or that has a multiplexed account where a bare key is kept, acts exactly like a line that asks for
help, but for its fault.
-/

namespace XdrText

/-- The second outcome is the first one without that fault; if the row could not be read, both ask
for help with the same names. -/
structure Outcome.Spares {α : Type} (f : LineFault) (out again : Outcome α) : Prop where
  value : again.value = out.value
  rest : again.rest = out.rest
  overrun : again.overrun = out.overrun
  faults : ∃ before after, out.faults = before ++ f :: after ∧ again.faults = before ++ after
  asked : ∀ fault, f.cause = .malformed fault → ∀ name, name ∈ again.asked ↔ name ∈ out.asked

namespace Reading
variable {α β : Type} {line : Nat} {x : Reading α}

/-- A question in the row of a line makes no difference if the row is left, and only that of the
fault if the row is refused. -/
structure Spares (line : Nat) (x : Reading α) : Prop where
  cites : x.Cites Cause.Refuses
  left : ∀ t : Table, t.Distinct → (x t).rest.OnLine line →
    x (t.queried line) = { x t with rest := (x t).rest.queried line }
  refused : ∀ t : Table, t.Distinct → ∀ f ∈ (x t).faults, f.line = line → f.cause.Refuses →
    Outcome.Spares f (x t) (x (t.queried line))

namespace Spares

/-- A step without a refusal that does not look at the texts of rows. -/
theorem of_blind (cites : x.Cites Cause.Refuses)
    (accepts : ∀ t, ∀ f ∈ (x t).faults, ¬ f.cause.Refuses)
    (blind : ∀ t : Table, x (t.queried line) = { x t with rest := (x t).rest.queried line }) :
    x.Spares line where
  cites := cites
  left t _ _ := blind t
  refused t _ f hf _ refuses := absurd refuses (accepts t f hf)

theorem of_silent (cites : x.Cites Cause.Refuses) (silent : ∀ t, (x t).faults = [])
    (blind : ∀ t : Table, x (t.queried line) = { x t with rest := (x t).rest.queried line }) :
    x.Spares line := by
  refine of_blind cites (fun t f hf => ?_) blind
  rw [silent t] at hf
  cases hf

theorem bind {f : α → Reading β} (hx : x.Spares line) (hf : ∀ t, (f (x t).value).Spares line) :
    (x >>= f).Spares line where
  cites := hx.cites.bind fun t => (hf t).cites
  left t ht onLine := by
    have distinct := hx.cites.shrinks.distinct ht
    -- a row that is left in the end was left by the first step
    have between : (x t).rest.OnLine line := by
      obtain ⟨name, row, hrow, same⟩ := onLine
      exact ⟨name, row, (hf t).cites.shrinks _ name row hrow, same⟩
    have first := hx.left t ht between
    have second := (hf t).left (x t).rest distinct onLine
    simp only [Bind.bind, Reading.bind, first, second]
  refused t ht g hg same refuses := by
    have distinct := hx.cites.shrinks.distinct ht
    rcases List.mem_append.mp hg with hg | hg
    · -- refused by the first step: the second one starts from the same table
      obtain ⟨value, rest, overrun, ⟨before, after, whole, without⟩, asked⟩ :=
        hx.refused t ht g hg same refuses
      constructor
      · simp only [Bind.bind, Reading.bind, value, rest]
      · simp only [Bind.bind, Reading.bind, value, rest]
      · simp only [Bind.bind, Reading.bind, value, rest, overrun]
      · refine ⟨before, after ++ (f (x t).value (x t).rest).faults, ?_, ?_⟩
        · simp [Bind.bind, Reading.bind, whole]
        · simp [Bind.bind, Reading.bind, value, rest, without]
      · intro fault hfault name
        simp only [Bind.bind, Reading.bind, value, rest, List.mem_append, asked fault hfault name]
    · -- refused by the second step: the row was left by the first one
      obtain ⟨name, row, hrow, onLine, -⟩ := (hf t).cites.taken (x t).rest g hg refuses
      have first := hx.left t ht ⟨name, row, hrow, onLine.trans same⟩
      obtain ⟨value, rest, overrun, ⟨before, after, whole, without⟩, asked⟩ :=
        (hf t).refused (x t).rest distinct g hg same refuses
      constructor
      · simp only [Bind.bind, Reading.bind, first, value]
      · simp only [Bind.bind, Reading.bind, first, rest]
      · simp only [Bind.bind, Reading.bind, first, overrun]
      · refine ⟨(x t).faults ++ before, after, ?_, ?_⟩
        · simp [Bind.bind, Reading.bind, whole]
        · simp [Bind.bind, Reading.bind, first, without]
      · intro fault hfault name
        simp only [Bind.bind, Reading.bind, first, List.mem_append, asked fault hfault name]

section
variable {name : String} {rule : Rule α} {old : α} {row : Row}

/-- A row with a question leaves what is there and asks for help. -/
theorem verdict_queried (h : row.line = line) :
    verdict name rule old (row.queried line) = (old, none, [name]) := by
  simp only [verdict, Row.entry_queried h, if_true]

end

theorem judge? (name : String) {rule : Rule α} (fair : rule.Fair) (old : α) :
    (Reading.judge? name rule old).Spares line where
  cites := .judge? name rule old
  left t ht onLine := by
    cases h : t.get? name with
    | none =>
        have h' : (t.queried line).get? name = none := by
          rw [Table.get?_queried, h, Option.map_none]
        rw [judge?_of_none h, judge?_of_none h']
    | some row =>
        rw [judge?_of_some h] at onLine ⊢
        -- the row that is left stands on the line, so the row that is judged does not
        have apart : row.line ≠ line := fun here => ht.not_onLine_erase h (here ▸ onLine)
        have h' : (t.queried line).get? name = some row := by
          rw [Table.get?_queried, h, Option.map_some, Row.queried_of_ne apart]
        rw [judge?_of_some h', Table.erase_queried]
  refused t ht f hf same refuses := by
    cases h : t.get? name with
    | none =>
        rw [judge?_of_none h] at hf
        cases hf
    | some row =>
        rw [judge?_of_some h] at hf
        obtain ⟨c, hc, rfl⟩ := List.mem_map.mp hf
        obtain hc : (verdict name rule old row).2.1 = some c := by simpa using hc
        have h' : (t.queried line).get? name = some (row.queried line) := by
          rw [Table.get?_queried, h, Option.map_some]
        -- the row is gone, so the question is gone as well
        have gone : ¬ Table.OnLine line (t.erase name) := same ▸ ht.not_onLine_erase h
        rw [judge?_of_some h, judge?_of_some h', verdict_queried same, Table.erase_queried,
          Table.queried_of_not_onLine gone]
        constructor
        · simp only [verdict_of_refused fair hc refuses]
        · rfl
        · rfl
        · exact ⟨[], [], by simp [hc], rfl⟩
        · rintro fault rfl n
          rw [List.mem_singleton, mem_asked_verdict]
          exact (and_iff_left (.inr ⟨fault, hc⟩)).symm

end Spares
end Reading

namespace Reader
open Reading
variable {r : Reader}

/-- A type without an initial value refuses no row. -/
theorem refusals_cited (r : Reader) :
    r.Compositional (fun _ => True) fun x => x.Cites Cause.Refuses :=
  Reader.cites fun _ _ _ _ _ => id

/-- The walk treats every row that it refuses like a question. -/
theorem spares (line : Nat) : r.Compositional (fun _ => True) fun x => x.Spares line where
  pure a := .of_silent (r.refusals_cited.pure a) (fun _ => rfl) fun _ => rfl
  bind := .bind
  judge? name _ fair old := .judge? name fair old
  mentions name :=
    .of_silent (r.refusals_cited.mentions name) (fun _ => rfl) fun t =>
      mentions_blind name t line "?"
  lineOf name :=
    .of_silent (r.refusals_cited.lineOf name) (fun _ => rfl) fun t => lineOf_blind name t line "?"
  discard name :=
    .of_silent (r.refusals_cited.discard name) (fun _ => rfl) fun t => discard_blind name t line "?"
  giveUp a := .of_silent (r.refusals_cited.giveUp a) (fun _ => rfl) fun _ => rfl
  unmade line' _ ht h ne := by
    refine .of_blind (r.refusals_cited.unmade line' ht h ne) (fun t f hf => ?_) fun _ => rfl
    cases List.mem_singleton.mp hf
    exact id

end Reader

/-- The second reading is the first one without that fault; if the line could not be read, both ask
for help with the same names. -/
structure Decoded.Spares (f : LineFault) (read again : Decoded) : Prop where
  value : again.value = read.value
  complete : again.complete = read.complete
  faults : ∃ before after, read.faults = before ++ f :: after ∧ again.faults = before ++ after
  asked : ∀ fault, f.cause = .malformed fault → ∀ name, name ∈ again.asked ↔ name ∈ read.asked

namespace Schema
variable {s : Schema}

/-- A line that is refused acts exactly like a question, but for its fault. -/
theorem readWithin_query {d : Definitions} (resolved : d.resolve = .ok s) {ty : Ty} {v : Value}
    (h : s.HasType ty v) (limit : Nat) (native name doc : String) {f : LineFault}
    (hf : f ∈ (s.readWithin limit native name doc v).faults) (refuses : f.cause.Refuses) :
    Decoded.Spares f (s.readWithin limit native name doc v)
      (s.readWithin limit native name (Document.query f.line doc) v) := by
  have spares : (Reader.node ⟨s, native⟩ limit 0 name v).Spares f.line :=
    (Reader.spares f.line).node (Definitions.resolve_sound resolved)
      closed_all limit trivial h.shaped
  rcases List.mem_append.mp hf with stray | hf
  · obtain ⟨line, -, rfl⟩ := List.mem_map.mp stray
    cases refuses
  · obtain ⟨value, -, overrun, ⟨before, after, whole, without⟩, asked⟩ :=
      spares.refused _ (Document.table_distinct doc) f hf rfl refuses
    rw [← Document.table_query] at value overrun without asked
    refine ⟨value, congrArg (!·) overrun, ?_, asked⟩
    refine ⟨(Document.strayLines doc).map (⟨·, .missingColon⟩) ++ before, after, ?_, ?_⟩
    · simp only [readWithin, whole, List.append_assoc]
    · simp only [readWithin, without, Document.strayLines_query, List.append_assoc]

/-- An unknown memo, between a fee that cannot be read and a line without a colon. -/
def memoFault : LineFault :=
  ⟨2, .malformed (.enum "MemoType" "MEMO_NOTE")⟩

theorem readWithin_query_envelope :
    Envelope.definitions.resolve = .ok Envelope.schema ∧
      Envelope.schema.HasType Envelope.ty Envelope.initial ∧
      memoFault ∈ (Envelope.schema.readWithin 4 "native" ""
        "tx.fee: 1x\ntx.memo.type: MEMO_NOTE\nmemo" Envelope.initial).faults ∧
      memoFault.cause.Refuses ∧
      Decoded.Spares memoFault
        (Envelope.schema.readWithin 4 "native" "" "tx.fee: 1x\ntx.memo.type: MEMO_NOTE\nmemo"
          Envelope.initial)
        (Envelope.schema.readWithin 4 "native" ""
          (Document.query 2 "tx.fee: 1x\ntx.memo.type: MEMO_NOTE\nmemo") Envelope.initial) := by
  have found : memoFault ∈ (Envelope.schema.readWithin 4 "native" ""
      "tx.fee: 1x\ntx.memo.type: MEMO_NOTE\nmemo" Envelope.initial).faults := by decide +kernel
  exact ⟨Envelope.resolve_definitions, Envelope.initial_hasType, found, trivial,
    readWithin_query Envelope.resolve_definitions Envelope.initial_hasType 4 _ _ _ found trivial⟩

end Schema
end XdrText
