import XdrText.Proofs.Table
import XdrText.Proofs.Walk

/-!
# XdrText — the lines of faults

Rows are used up: a step of reading puts none into the table (`Reading.Shrinks`), and each row is
judged at most once, when it is taken away.  So the faults that are found belong to different lines,
each of which held a row of the table (`Reading.Cites`).

**Attribution** (`Schema.readWithin_attributed`).  No line of a document is cited twice, whatever is
wrong with it, and a line with a colon is cited only if it is the last one that carries its name.  A
fault without a line of its own would be that of a type without an initial value; where all types
are declared there is none.
-/

namespace XdrText

namespace Reading
variable {α β : Type} {counts : Cause → Prop} {x : Reading α}

/-- Rows are taken away, and none is put there. -/
def Shrinks (x : Reading α) : Prop :=
  ∀ t name row, (x t).rest.get? name = some row → t.get? name = some row

namespace Shrinks

/-- A name without a row has none afterwards. -/
theorem get?_eq_none (h : x.Shrinks) {t : Table} {name : String} (hn : t.get? name = none) :
    (x t).rest.get? name = none := by
  cases hr : (x t).rest.get? name with
  | none => rfl
  | some row => rw [h t name row hr] at hn; cases hn

theorem distinct (h : x.Shrinks) {t : Table} (ht : t.Distinct) : (x t).rest.Distinct :=
  fun m n a b ha hb => ht m n a b (h t m a ha) (h t n b hb)

/-- A step that leaves the table alone takes rows away, if none. -/
theorem of_rest_eq (h : ∀ t, (x t).rest = t) : x.Shrinks :=
  fun t _ _ hr => h t ▸ hr

theorem bind {f : α → Reading β} (hx : x.Shrinks) (hf : ∀ t, (f (x t).value).Shrinks) :
    (x >>= f).Shrinks :=
  fun t name row hr => hx t name row (hf t (x t).rest name row hr)

theorem discard (name : String) : (Reading.discard name).Shrinks := by
  intro t n row hr
  rw [Reading.discard, NameMap.get?_erase] at hr
  split at hr
  · cases hr
  · exact hr

/-- A judgement takes away the row that it judges, and no other. -/
theorem judge? (name : String) (rule : Rule α) (old : α) :
    (Reading.judge? name rule old).Shrinks := by
  intro t n row hr
  cases h : t.get? name with
  | none => simpa only [judge?_of_none h] using hr
  | some _ =>
      rw [judge?_of_some h] at hr
      exact discard name t n row hr

theorem judge (name : String) (rule : Rule α) (old : α) : (Reading.judge name rule old).Shrinks :=
  judge? name rule old

end Shrinks

/-- The faults whose causes count are each of a row that was taken away, and of different lines. -/
structure Cites (counts : Cause → Prop) (x : Reading α) : Prop where
  shrinks : x.Shrinks
  taken : ∀ t, ∀ f ∈ (x t).faults, counts f.cause →
    ∃ name row, t.get? name = some row ∧ row.line = f.line ∧ (x t).rest.get? name = none
  once : ∀ t : Table, t.Distinct →
    (x t).faults.Pairwise fun f g => counts f.cause → counts g.cause → f.line ≠ g.line

namespace Cites

/-- A step without a fault that takes no row. -/
theorem of_silent (h : ∀ t, (x t).rest = t ∧ (x t).faults = []) : x.Cites counts where
  shrinks := .of_rest_eq fun t => (h t).1
  taken t f hf := by
    rw [(h t).2] at hf
    cases hf
  once t _ := by
    rw [(h t).2]
    exact .nil

/-- The second step cites rows that the first one has left, so no line is cited twice. -/
theorem bind {f : α → Reading β} (hx : x.Cites counts) (hf : ∀ t, (f (x t).value).Cites counts) :
    (x >>= f).Cites counts where
  shrinks := hx.shrinks.bind fun t => (hf t).shrinks
  taken t g hg hc := by
    rcases List.mem_append.mp hg with hg | hg
    · obtain ⟨name, row, hrow, line, gone⟩ := hx.taken t g hg hc
      exact ⟨name, row, hrow, line, (hf t).shrinks.get?_eq_none gone⟩
    · obtain ⟨name, row, hrow, line, gone⟩ := (hf t).taken (x t).rest g hg hc
      exact ⟨name, row, hx.shrinks t name row hrow, line, gone⟩
  once t ht := by
    refine List.pairwise_append.mpr ⟨hx.once t ht, (hf t).once _ (hx.shrinks.distinct ht), ?_⟩
    intro g hg k hk hcg hck same
    -- the row of the first fault is gone, that of the second one is still there
    obtain ⟨m, a, ha, line, gone⟩ := hx.taken t g hg hcg
    obtain ⟨n, b, hb, line', -⟩ := (hf t).taken (x t).rest k hk hck
    obtain rfl := ht m n a b ha (hx.shrinks t n b hb) (by omega)
    rw [gone] at hb
    cases hb

theorem discard (name : String) : (Reading.discard name).Cites counts where
  shrinks := .discard name
  taken _ _ hf := by cases hf
  once _ _ := .nil

/-- A fault whose cause does not count needs no row. -/
theorem report {line : Nat} {cause : Cause} (h : ¬ counts cause) :
    (Reading.report line cause).Cites counts where
  shrinks := .of_rest_eq fun _ => rfl
  taken t f hf hc := by
    cases List.mem_singleton.mp hf
    exact absurd hc h
  once _ _ := List.pairwise_singleton _ _

theorem judge? (name : String) (rule : Rule α) (old : α) :
    (Reading.judge? name rule old).Cites counts where
  shrinks := .judge? name rule old
  taken t f hf _ := by
    cases h : t.get? name with
    | none =>
        rw [judge?_of_none h] at hf
        cases hf
    | some row =>
        simp only [judge?_of_some h] at hf ⊢
        obtain ⟨_, -, rfl⟩ := List.mem_map.mp hf
        exact ⟨name, row, h, rfl, by rw [NameMap.get?_erase, if_pos rfl]⟩
  once t _ := by
    cases h : t.get? name with
    | none =>
        rw [judge?_of_none h]
        exact .nil
    | some row =>
        rw [judge?_of_some h]
        cases (verdict name rule old row).2.1 with
        | none => exact .nil
        | some c => exact List.pairwise_singleton _ _

end Cites
end Reading

/-- Rows are only taken away. -/
theorem Reader.shrinks_sequential : Reader.Sequential fun x => x.Shrinks where
  pure _ := .of_rest_eq fun _ => rfl
  bind := .bind
  judge? name rule _ old := .judge? name rule old
  mentions _ := .of_rest_eq fun _ => rfl
  lineOf _ := .of_rest_eq fun _ => rfl
  discard := .discard

/-- The walk over a tree takes rows away, as each of its steps does. -/
theorem Reader.shrinks {r : Reader} : r.Compositional (fun _ => True) fun x => x.Shrinks where
  toSequential := shrinks_sequential
  giveUp _ := .of_rest_eq fun _ => rfl
  unmade _ _ _ _ _ := .of_rest_eq fun _ => rfl

/-- Where a type without an initial value does not count, the walk cites the rows that it judges. -/
theorem Reader.cites {r : Reader} {kind : Ty → Prop} {counts : Cause → Prop}
    (unmade : ∀ ty f, kind ty → r.schema.initial ty = .error f → f ≠ .endlessType →
      ¬ counts (.misplaced (.noInitial f))) :
    r.Compositional kind fun x => x.Cites counts where
  pure _ := .of_silent fun _ => ⟨rfl, rfl⟩
  bind := .bind
  judge? name _ _ old := .judge? name _ old
  mentions _ := .of_silent fun _ => ⟨rfl, rfl⟩
  lineOf _ := .of_silent fun _ => ⟨rfl, rfl⟩
  discard := .discard
  giveUp _ := .of_silent fun _ => ⟨rfl, rfl⟩
  unmade _ _ ht h ne := .report (unmade _ _ ht h ne)

namespace Document
variable {doc : String}

/-- The faults belong to different lines of the document, and those of lines with a colon to rows of
its table. -/
structure Attributed (doc : String) (faults : List LineFault) : Prop where
  once : (faults.map LineFault.line).Nodup
  /-- Blank lines have no faults. -/
  written : ∀ f ∈ faults, ∃ l ∈ writtenLines doc, l.2 = f.line
  within : ∀ f ∈ faults, 1 ≤ f.line ∧ f.line ≤ (numberedLines doc).length
  /-- The row is the last one of its name. -/
  last : ∀ f ∈ faults, f.cause ≠ .missingColon → ∃ name row, (table doc).get? name = some row ∧
    row.line = f.line ∧ (name, row) ∈ rows doc ∧ ∀ r, (name, r) ∈ rows doc → r.line ≤ f.line

/-- Faults of different rows of the table, behind those of the lines without a colon. -/
theorem attributed_of_rows {found : List LineFault}
    (cited : ∀ f ∈ found, ∃ name row, (table doc).get? name = some row ∧ row.line = f.line)
    (once : (found.map LineFault.line).Nodup) :
    Attributed doc ((strayLines doc).map (⟨·, .missingColon⟩) ++ found) := by
  have written : ∀ f ∈ (strayLines doc).map (⟨·, .missingColon⟩) ++ found,
      ∃ l ∈ writtenLines doc, l.2 = f.line := by
    intro f hf
    rcases List.mem_append.mp hf with hf | hf
    · obtain ⟨line, stray, rfl⟩ := List.mem_map.mp hf
      obtain ⟨l, hl, same, -⟩ := mem_strayLines.mp stray
      exact ⟨l, hl, same⟩
    · obtain ⟨name, row, hrow, line⟩ := cited f hf
      obtain ⟨l, hl, same, -⟩ := mem_rows.mp (get?_table.mp hrow).1
      exact ⟨l, hl, same.trans line⟩
  refine ⟨?_, written, fun f hf => ?_, fun f hf colon => ?_⟩
  · have stray : ((strayLines doc).map fun line => (⟨line, .missingColon⟩ : LineFault)).map
        LineFault.line = strayLines doc := by simp [Function.comp_def]
    rw [List.map_append, stray]
    refine List.nodup_append.mpr ⟨nodup_strayLines doc, once, ?_⟩
    -- a line without a colon is no row
    rintro line hl _ hl' rfl
    obtain ⟨f, hf, rfl⟩ := List.mem_map.mp hl'
    obtain ⟨name, row, hrow, same⟩ := cited f hf
    exact notMem_strayLines (get?_table.mp hrow).1 (same ▸ hl)
  · obtain ⟨l, hl, same⟩ := written f hf
    exact same ▸ le_of_mem_writtenLines hl
  · rcases List.mem_append.mp hf with hf | hf
    · obtain ⟨line, -, rfl⟩ := List.mem_map.mp hf
      exact absurd rfl colon
    · obtain ⟨name, row, hrow, line⟩ := cited f hf
      obtain ⟨hmem, last⟩ := get?_table.mp hrow
      exact ⟨name, row, hrow, line, hmem, fun r hr => line ▸ last r hr⟩

end Document

/-- The built-in schema declares the type of its envelope. -/
theorem Envelope.declares : schema.Declares ty :=
  show (schema.union? typeName).isSome from rfl

namespace Schema
variable {s : Schema}

/-- Where a tree is of a type of the schema, reading cites no line twice, none that is not there,
and of the lines with a colon only the last one of a name.

`HasType` does not say that the type is one of the schema: an absent optional and an empty sequence
have their type whatever could be in them, also where the schema does not declare it.  That has no
initial value, so an optional of it that a document makes present is at fault on line 0, which no
document has.  `Declares` leaves such types out; those that the schema itself names are declared
where it was resolved. -/
theorem readWithin_attributed {d : Definitions} (resolved : d.resolve = .ok s) {ty : Ty}
    (declared : s.Declares ty) {v : Value} (h : s.HasType ty v) (limit : Nat)
    (native name doc : String) :
    Document.Attributed doc (s.readWithin limit native name doc v).faults := by
  have sound := Definitions.resolve_sound resolved
  -- declared types have an initial value unless they go on without end
  have cites : (Reader.node ⟨s, native⟩ limit 0 name v).Cites fun _ => True :=
    Reader.Compositional.node
      (Reader.cites fun ty f ht hf ne => absurd (endless_of_initial sound ht.supplies hf) ne)
      sound (Definitions.declares_closed resolved) limit declared h.shaped
  refine Document.attributed_of_rows (fun f hf => ?_) ?_
  · obtain ⟨field, row, hrow, line, -⟩ := cites.taken _ f hf trivial
    exact ⟨field, row, hrow, line⟩
  · refine List.pairwise_map.mpr ?_
    exact (cites.once _ (Document.table_distinct doc)).imp fun apart => apart trivial trivial

/-- A line without a colon, an unknown memo, and a fee of which the second line counts. -/
theorem readWithin_attributed_envelope :
    Envelope.definitions.resolve = .ok Envelope.schema ∧ Envelope.schema.Declares Envelope.ty ∧
      Envelope.schema.HasType Envelope.ty Envelope.initial ∧
      Document.Attributed "fee\ntx.fee: 1x\ntx.memo.type: MEMO_NOTE\ntx.fee: 2x"
        (Envelope.schema.readWithin 8 "native" ""
          "fee\ntx.fee: 1x\ntx.memo.type: MEMO_NOTE\ntx.fee: 2x" Envelope.initial).faults :=
  ⟨Envelope.resolve_definitions, Envelope.declares, Envelope.initial_hasType,
    readWithin_attributed Envelope.resolve_definitions Envelope.declares Envelope.initial_hasType
      8 _ _ _⟩

end Schema
end XdrText
