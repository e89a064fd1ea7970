import XdrText.Proofs.Again
import XdrText.Proofs.Frame

/-!
# XdrText — fixed lengths

Arrays are read element by element, and opaque data of fixed length from as many bytes as are there.
Only the row for the short name of a bare source key is read without regard to the data that is
there: an account is always 32 bytes.

**Fixed lengths** (`Schema.readWithin_lengths`).  What sits at one path before and after reading,
behind the same tags of unions, has as many elements or bytes as it had, unless it is opaque data
under the name of a bare source key, which becomes the key that a row of the short name gives.
-/

namespace XdrText
open Key

/-- An array keeps the number of its elements and opaque data of fixed length that of its bytes,
unless it becomes a key where the table has a row for the short name of a bare source key. -/
structure Table.KeepsLength (t : Table) (name : String) (x y : Value) : Prop where
  array : ∀ items, x = .array items → ∃ items', y = .array items' ∧ items'.length = items.length
  code : ∀ data, x = .leaf (.code data) →
    ∃ data', y = .leaf (.code data') ∧ data'.length = data.length
  fixed : ∀ data, x = .leaf (.fixed data) → ∃ data', y = .leaf (.fixed data') ∧
    (data'.length = data.length ∨ ∃ short, Name.sourceAlias? name = some short ∧
      (t.get? short).isSome ∧ ∃ key : Block 32, data' = key.bytes)

namespace Table.KeepsLength
variable {t : Table} {name : String} {x y : Value}

theorem refl : t.KeepsLength name x x where
  array items h := ⟨items, h, rfl⟩
  code data h := ⟨data, h, rfl⟩
  fixed data h := ⟨data, h, .inl rfl⟩

theorem of_items {items items' : List Value} (h : items'.length = items.length) :
    t.KeepsLength name (.array items) (.array items') where
  array _ := by rintro ⟨⟩; exact ⟨items', rfl, h⟩
  code _ h := by cases h
  fixed _ h := by cases h

/-- A row that is still there was there before. -/
theorem mono {t' : Table} (h : t'.KeepsLength name x y)
    (less : ∀ n, t.get? n = none → t'.get? n = none) : t.KeepsLength name x y where
  array := h.array
  code := h.code
  fixed data hx := by
    obtain ⟨data', hy, length⟩ := h.fixed data hx
    refine ⟨data', hy, length.imp id ?_⟩
    rintro ⟨short, hs, row, key⟩
    rw [Option.isSome_iff_ne_none] at row
    exact ⟨short, hs, Option.isSome_iff_ne_none.mpr fun none => row (less short none), key⟩

end Table.KeepsLength

namespace Reader
variable {r : Reader} {new : NodeReader} {t : Table} {name : String}

/-- A leaf keeps its length under its own name, and takes that of a key under the short one. -/
theorem leaf_keepsLength (l : Leaf) :
    t.KeepsLength name (.leaf l) (.leaf (r.leaf name l t).value) where
  array _ h := by cases h
  code data h := by
    cases h
    obtain ⟨data', same, length⟩ := Leaf.exists_code (@plainLeaf_ensures_ty r name (.code data) t)
    exact ⟨data', congrArg Value.leaf same, length⟩
  fixed data h := by
    cases h
    cases hs : Name.sourceAlias? name with
    | none =>
        obtain ⟨data', same, length⟩ :=
          Leaf.exists_fixed (@plainLeaf_ensures_ty r name (.fixed data) t)
        exact ⟨data', by simp [leaf, Leaf.bareSource?, hs, same], .inl length⟩
    | some short =>
        obtain ⟨data', same, length⟩ := @bareSource_fixed r t name short data
        refine ⟨data', by simp [leaf, Leaf.bareSource?, hs, same], length.imp id fun source => ?_⟩
        exact ⟨short, rfl, source⟩

/-- A part that is read in its place keeps its length. -/
theorem Part.keepsLength {x y : Value} (h : r.Part new t name x y) : t.KeepsLength name x y := by
  cases h with
  | kept => exact .refl
  | read less =>
      refine Table.KeepsLength.mono ?_ less
      cases x with
      | leaf l =>
          simp only [nodeWith]
          exact leaf_keepsLength l
      | array items =>
          rw [nodeWith_array]
          refine .of_items ?_
          rw [length_elements, Nat.min_self, List.length_nil, Nat.add_zero]
      | _ => exact ⟨nofun, nofun, nofun⟩

end Reader

namespace Schema
variable {s : Schema}

/-- An array or opaque data of fixed length that sits at one path before and after reading, behind
unions that keep their tags, keeps its length, unless it is data under the name of a bare source key
and the document has a row for the short name. -/
theorem readWithin_lengths {d : Definitions} (resolved : d.resolve = .ok s) {ty : Ty} {v : Value}
    (h : s.HasType ty v) (limit : Nat) (native name doc : String) {path : List Step} {x y : Value}
    (before : v.follow? path = some x)
    (after : (s.readWithin limit native name doc v).value.follow? path = some y)
    (tags : v.SameTags (s.readWithin limit native name doc v).value path) :
    ∃ n, s.nameAt? name v path = some n ∧ (Document.table doc).KeepsLength n x y := by
  obtain ⟨n, hn, part⟩ := readWithin_place resolved h before after tags
  exact ⟨n, hn, part.keepsLength⟩

/-! ### Sources -/

/-- A transaction that is nothing but its source, of `n` bytes. -/
def sourceDefinitions (n : Nat) : Definitions where
  enums := []
  structs := [⟨"Tx", [⟨"sourceAccountEd25519", .fixed n⟩]⟩]
  unions := []

/-- The schema of that transaction. -/
def source (n : Nat) : Schema :=
  ⟨[], (sourceDefinitions n).structs, []⟩

/-- The transaction with a source of some bytes. -/
def sourceOf (data : Bytes) : Value :=
  .struct "Tx" [("sourceAccountEd25519", .leaf (.fixed data))]

theorem sourceOf_hasType (data : Bytes) :
    (source data.length).HasType (.struct "Tx") (sourceOf data) :=
  .struct rfl (.cons (.leaf rfl trivial) .nil)

/-- A document with a row for the short name. -/
def sourceText : String :=
  "tx.sourceAccount: GAAAAAAAAAAAAAAAAAAAAAAAAAAAAAAAAAAAAAAAAAAAAAAAAAAAAWHF\n"

/-- The source has another key after reading. -/
theorem readWithin_lengths_source :
    (sourceDefinitions 32).resolve = .ok (source 32) ∧
      (source 32).HasType (.struct "Tx") (sourceOf (List.replicate 32 7)) ∧
      (sourceOf (List.replicate 32 7)).follow? [.field 0] =
        some (.leaf (.fixed (List.replicate 32 7))) ∧
      ((source 32).readWithin 0 "native" "tx" sourceText
        (sourceOf (List.replicate 32 7))).value.follow? [.field 0] =
        some (.leaf (.fixed (List.replicate 32 0))) ∧
      (sourceOf (List.replicate 32 7)).SameTags
        ((source 32).readWithin 0 "native" "tx" sourceText (sourceOf (List.replicate 32 7))).value
        [.field 0] ∧
      ∃ n, (source 32).nameAt? "tx" (sourceOf (List.replicate 32 7)) [.field 0] = some n ∧
        (Document.table sourceText).KeepsLength n (.leaf (.fixed (List.replicate 32 7)))
          (.leaf (.fixed (List.replicate 32 0))) := by
  have resolved : (sourceDefinitions 32).resolve = .ok (source 32) := rfl
  have typed := sourceOf_hasType (List.replicate 32 7)
  have before : (sourceOf (List.replicate 32 7)).follow? [.field 0] =
      some (.leaf (.fixed (List.replicate 32 7))) := rfl
  have after : ((source 32).readWithin 0 "native" "tx" sourceText
      (sourceOf (List.replicate 32 7))).value.follow? [.field 0] =
      some (.leaf (.fixed (List.replicate 32 0))) := by decide +kernel
  have tags : (sourceOf (List.replicate 32 7)).SameTags
      ((source 32).readWithin 0 "native" "tx" sourceText (sourceOf (List.replicate 32 7))).value
      [.field 0] := by
    intro path hp
    -- there is no arm in the path
    have inside := hp.subset List.mem_concat_self
    simp at inside
  exact ⟨resolved, typed, before, after, tags,
    readWithin_lengths resolved typed 0 "native" "tx" sourceText before after tags⟩

/-- A source of four bytes becomes a key of 32 bytes, and there is no fault. -/
theorem readWithin_source :
    (sourceDefinitions 4).resolve = .ok (source 4) ∧
      (source 4).HasType (.struct "Tx") (sourceOf (List.replicate 4 0)) ∧
      ((source 4).read "native" "tx" sourceText (sourceOf (List.replicate 4 0))).value =
        sourceOf (List.replicate 32 0) ∧
      ((source 4).read "native" "tx" sourceText (sourceOf (List.replicate 4 0))).faults = [] :=
  ⟨rfl, sourceOf_hasType (List.replicate 4 0), by decide +kernel, by decide +kernel⟩

end Schema
end XdrText
