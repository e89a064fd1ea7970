import XdrText.Proofs.Mirror
import XdrText.Proofs.Walk

/-!
# XdrText — symbols of enums

An enum is written as the first symbol of its value and read as the first value of its symbol,
whether or not all symbols stand behind it on the line.

**Symbols** (`Schema.readWithin_symbol`).  Where symbols are identifiers, the line of an enum is
read without a fault, into any enum of the type.  It is read as the value that was written unless
the symbol has several values; resolution does not compare the symbols of an enum.
-/

namespace XdrText
open Text

namespace Schema
variable {s : Schema}

/-- The line of an enum is read as the first value of its symbol, which is the value that was
written where no symbol of the enum has several values. -/
theorem readWithin_symbol (identifiers : ∀ e ∈ s.enums, ∀ x ∈ e.symbols, Name.isIdentifier x.1)
    {name : String} (stands : Name.Stands name) {a : Annotator} {ty : String} {n : Int32}
    (shown : (s.write a name (.leaf (.enum ty n))).faults = []) :
    ∃ e symbol m, s.enum? ty = some e ∧ e.symbol? n = some symbol ∧ e.value? symbol = some m ∧
      (∀ limit native old, s.readWithin limit native name (s.write a name (.leaf (.enum ty n))).text
        (.leaf (.enum ty old)) = ⟨.leaf (.enum ty m), [], [], true⟩) ∧
      ((∀ x ∈ e.symbols, ∀ y ∈ e.symbols, x.1 = y.1 → x.2 = y.2) → m = n) := by
  obtain ⟨e, he, some⟩ := Writer.within_of_leaf_faults (l := .enum ty n) trivial shown
  obtain ⟨symbol, hs⟩ := Option.isSome_iff_exists.mp some
  obtain ⟨m, hm, unique⟩ := EnumDecl.exists_value? hs
  refine ⟨e, symbol, m, he, hs, hm, fun limit native old => ?_, unique⟩
  obtain ⟨x, line, shows⟩ := Writer.enum_shows (w := ⟨s, a, .leaf (.enum ty n)⟩) he
    (identifiers e (List.mem_of_find?_eq_some he)) hs name
  have written : s.write a name (.leaf (.enum ty n)) = .line name x := line
  -- the document has one row
  have fits : ∀ l ∈ (Written.line name x).lines, l.Fits := by
    simpa using (⟨stands, shows.settled⟩ : Line.Fits ⟨name, x⟩)
  have stray := Document.strayLines_text fits
  obtain ⟨k, row⟩ := Document.holds_table fits (by simp) ⟨name, x⟩ (by simp)
  -- the row is read back
  have recovers : Reader.Recovers ⟨s, native⟩ (.enum ty m) x :=
    .of_token shows (congrArg (Option.map _) he) fun v hv =>
      iff_of_true (Except.map_eq_ok.mpr ⟨m, Reader.parseEnum_token hm hv, rfl⟩) trivial
  have within : (Leaf.enum ty m).Within fun _ _ => True := trivial
  have taken : (Reader.plainLeaf ⟨s, native⟩ name (.enum ty old)).Takes ⟨name, x⟩
      fun _ => .enum ty m :=
    Reader.plainLeaf_takes recovers within rfl trivial
  have read := taken.map Value.leaf _ k row
  have node : Reader.node ⟨s, native⟩ limit 0 name (.leaf (.enum ty old)) =
      Value.leaf <$> Reader.plainLeaf ⟨s, native⟩ name (.enum ty old) := by
    simp [Reader.node_eq, Reader.nodeWith, Reader.leaf, Leaf.bareSource?]
  simp [readWithin, written, stray, node, read]

/-! ### Colors -/

/-- Two colors with their values. -/
def colorDefinitions (first second : String) : Definitions where
  enums := [⟨"Color", [(first, 0), (second, 1)]⟩]
  structs := []
  unions := []

def colors (first second : String) : Schema :=
  ⟨(colorDefinitions first second).enums, [], []⟩

/-- The annotator asks for all symbols. -/
theorem readWithin_symbol_colors :
    (∀ e ∈ (colors "RED" "BLUE").enums, ∀ x ∈ e.symbols, Name.isIdentifier x.1) ∧
      Name.Stands "color" ∧
      ((colors "RED" "BLUE").write { Annotator.plain with wantsHelp := fun _ => true } "color"
        (.leaf (.enum "Color" 1))).faults = [] ∧
      (colors "RED" "BLUE").readWithin 0 "native" "color"
        ((colors "RED" "BLUE").write { Annotator.plain with wantsHelp := fun _ => true } "color"
          (.leaf (.enum "Color" 1))).text (.leaf (.enum "Color" 0)) =
        ⟨.leaf (.enum "Color" 1), [], [], true⟩ := by
  have identifiers : ∀ e ∈ (colors "RED" "BLUE").enums, ∀ x ∈ e.symbols, Name.isIdentifier x.1 := by
    decide
  have stands : Name.Stands "color" := Name.Plain.stands (by decide)
  have shown : ((colors "RED" "BLUE").write
      { Annotator.plain with wantsHelp := fun _ => true } "color"
      (.leaf (.enum "Color" 1))).faults = [] := rfl
  obtain ⟨e, symbol, m, he, -, -, read, unique⟩ := readWithin_symbol identifiers stands shown
  cases he
  obtain rfl : m = 1 := unique (by decide)
  exact ⟨identifiers, stands, shown, read 0 "native" 0⟩

/-- Two symbols of an enum can be the same, and then the second one is read as the first. -/
theorem readWithin_symbol_twice :
    (colorDefinitions "RED" "RED").resolve = .ok (colors "RED" "RED") ∧
      (∀ e ∈ (colors "RED" "RED").enums, ∀ x ∈ e.symbols, Name.isIdentifier x.1) ∧
      ((colors "RED" "RED").write .plain "color" (.leaf (.enum "Color" 1))).faults = [] ∧
      ((colors "RED" "RED").write .plain "color" (.leaf (.enum "Color" 1))).text = "color: RED\n" ∧
      ((colors "RED" "RED").read "native" "color"
        ((colors "RED" "RED").write .plain "color" (.leaf (.enum "Color" 1))).text
        (.leaf (.enum "Color" 1))).value = .leaf (.enum "Color" 0) ∧
      ((colors "RED" "RED").read "native" "color"
        ((colors "RED" "RED").write .plain "color" (.leaf (.enum "Color" 1))).text
        (.leaf (.enum "Color" 1))).faults = [] :=
  ⟨rfl, by decide, rfl, rfl, rfl, rfl⟩

end Schema

end XdrText
