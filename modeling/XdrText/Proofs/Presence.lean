import XdrText.Proofs.Totality

/-!
# XdrText — when an optional is implied

An optional whose presence the table does not give is present if some row mentions it: the text is
asked for its own name and for those that go on with a dot or a bracket.  Away from the root these
are just the names that children and elements have, whatever they are called (`Name.covers_iff`).
The names of the children of the root have no dot before them, so a row that only stands below the
root does not make an optional there present.

**Presence** (`Reader.presence_unsaid`).  For every table and name: what the walk takes an optional
for, what that comes to for the node, and exactly when it agrees with the names of the nodes below.
-/

namespace XdrText

namespace Name

/-- The name itself, that of a child, or one that goes on with a bracket. -/
def Covers (name n : String) : Prop :=
  n = name ∨ (∃ rest, n = child name rest) ∨ ∃ rest, n = name ++ "[" ++ rest

theorem startsWith_iff {start name : String} :
    startsWith start name = true ↔ ∃ rest, name = start ++ rest := by
  rw [startsWith, List.isPrefixOf_iff_prefix]
  constructor
  · rintro ⟨rest, same⟩
    exact ⟨String.ofList rest, String.toList_injective (by simp [← same])⟩
  · rintro ⟨rest, rfl⟩
    exact ⟨rest.toList, by simp⟩

/-- Everything is below the root. -/
theorem covers_root (n : String) : Covers "" n :=
  .inr (.inl ⟨n, rfl⟩)

theorem covers_iff {name n : String} (ne : name ≠ "") : Covers name n ↔ Extends name n := by
  simp only [Covers, Extends, startsWith_iff, child, if_neg ne]

end Name

namespace Reader
variable {r : Reader} {new : NodeReader} {t : Table} {name : String}
    {outer limit : Nat} {inner : Ty}

/-- An optional without a row is read if something mentions it, and is absent if nothing does. -/
theorem nodeWith_optional_of_none (unsaid : t.get? (Name.presence name (outer + 1)) = none)
    (held : Option Value) :
    r.nodeWith new outer name (.optional inner held) t =
      if t.mentions name then
        r.heldWith new (outer + 1) name (.optional inner)
          (r.create new (outer + 1) name inner (((t.get? name).map Row.line).getD 0)
            (.optional inner) (.optional inner none)) held t
      else ⟨.optional inner none, t, [], [], false⟩ := by
  simp only [nodeWith, bind, Reading.bind, presence_of_none unsaid, List.nil_append, Bool.false_or]
  split <;> rfl

/-- An optional that is neither said to be there nor mentioned is absent. -/
theorem node_absent (unsaid : t.get? (Name.presence name (outer + 1)) = none)
    (unmentioned : t.mentions name = false) (held : Option Value) :
    r.node limit outer name (.optional inner held) t =
      ⟨.optional inner none, t, [], [], false⟩ := by
  cases limit <;> rw [node, nodeWith_optional_of_none unsaid, unmentioned,
    if_neg Bool.false_ne_true]

/-- An optional that is mentioned is there, and what it holds is read under its name. -/
theorem node_held (unsaid : t.get? (Name.presence name (outer + 1)) = none)
    (mentioned : t.mentions name = true) (v : Value) :
    r.node limit outer name (.optional inner (some v)) t =
      ((fun v => Value.optional inner (some v)) <$> r.node limit (outer + 1) name v) t := by
  cases limit <;> rw [node, nodeWith_optional_of_none unsaid, if_pos mentioned, heldWith]

/-- An optional for which the table has no row of its own is taken for present, and what it holds is
read, if and only if there is a row of its name or one that goes on with a dot or a bracket.  These
are the names of the nodes below it unless it is at the root: there every row is below it, and the
two agree only if there is no row or one that begins so. -/
theorem presence_unsaid (r : Reader) {t : Table} {name : String} {outer : Nat}
    (unsaid : t.get? (Name.presence name (outer + 1)) = none) :
    ∃ present, presence name (outer + 1) t = ⟨present, t, [], [], false⟩ ∧
      (∀ limit inner, if present then
          ∀ v, r.node limit outer name (.optional inner (some v)) t =
            ((fun v => Value.optional inner (some v)) <$> r.node limit (outer + 1) name v) t
        else ∀ held,
          r.node limit outer name (.optional inner held) t =
            ⟨.optional inner none, t, [], [], false⟩) ∧
      (present = true ↔ ∃ n ∈ t.names, Name.Extends name n) ∧
      ((present = true ↔ ∃ n ∈ t.names, Name.Covers name n) ↔
        (name = "" → t.names ≠ [] → ∃ n ∈ t.names, Name.Extends "" n)) := by
  refine ⟨t.mentions name, presence_of_none unsaid, fun limit inner => ?_, Table.mentions_iff, ?_⟩
  · split
    next mentioned => exact node_held unsaid mentioned
    next unmentioned => exact node_absent unsaid (Bool.not_eq_true _ ▸ unmentioned)
  rw [Table.mentions_iff]
  by_cases root : name = ""
  · subst root
    have covered : (∃ n ∈ t.names, Name.Covers "" n) ↔ t.names ≠ [] := by
      simp only [Name.covers_root, and_true, ne_eq, List.eq_nil_iff_forall_not_mem,
        not_forall, not_not]
    rw [covered]
    exact ⟨fun agree _ => agree.mpr,
      fun within => ⟨fun ⟨n, hn, _⟩ => List.ne_nil_of_mem hn, within rfl⟩⟩
  · simp only [Name.covers_iff root, root, false_imp_iff]

/-- One bound is enough for time bounds to be there. -/
theorem presence_unsaid_bounds :
    (Document.table "tx.timeBounds.minTime: 1\n").get? (Name.presence "tx.timeBounds" 1) = none ∧
      (presence "tx.timeBounds" 1 (Document.table "tx.timeBounds.minTime: 1\n")).value = true := by
  have unsaid : (Document.table "tx.timeBounds.minTime: 1\n").get?
      (Name.presence "tx.timeBounds" (0 + 1)) = none := by
    decide +kernel
  refine ⟨unsaid, ?_⟩
  obtain ⟨present, same, -, -, agrees⟩ := presence_unsaid ⟨Envelope.schema, "native"⟩ unsaid
  have below : ∃ n ∈ (Document.table "tx.timeBounds.minTime: 1\n").names,
      Name.Covers "tx.timeBounds" n :=
    ⟨"tx.timeBounds.minTime", by decide +kernel, .inr (.inl ⟨"minTime", by decide⟩)⟩
  rw [same]
  exact (agrees.mpr (fun root => absurd root (by decide))).mpr below

/-- The name of a field of the root has no dot before it, and an optional at the root is not taken
for present because of a row of that name: the row is not read. -/
theorem presence_root :
    let s : Schema := ⟨[], [⟨"S", [⟨"a", .int⟩]⟩], []⟩
    (Document.table "a: 1\n").get? (Name.presence "" 1) = none ∧
      "a" ∈ (Document.table "a: 1\n").names ∧ "a" = Name.child "" "a" ∧
      (presence "" 1 (Document.table "a: 1\n")).value = false ∧
      (s.read "native" "" "a: 1\n" (.optional (.struct "S") none)).value =
        .optional (.struct "S") none ∧
      (s.read "native" "" "a: 1\n" (.optional (.struct "S") none)).faults = [] := by
  decide +kernel

end Reader
end XdrText
