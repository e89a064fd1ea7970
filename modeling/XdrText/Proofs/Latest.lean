import XdrText.Proofs.Revision

/-!
# XdrText — the latest line of a name counts

A document is cut into lines at its line feeds, and a carriage return at the end of a line is
dropped (`Document.IsLine`).  A line that is not blank either carries a name and a value, to the
left and to the right of its first colon (`Document.Carries`), or it is stray (`Document.Stray`).
What a line carries does not depend on the other lines.

**The table** (`Document.table_exact`).  The table holds a row if and only if its line carries the
name and the value, and no later line carries the name.  The stray lines are reported in ascending
order, each once.
-/

namespace XdrText
open Text

namespace Text

/-- The text `t` is what is left of `s` without the blanks at its ends. -/
def Trims (s t : List Char) : Prop :=
  ∃ left right, s = left ++ t ++ right ∧ (∀ c ∈ left, isBlank c = true) ∧
    (∀ c ∈ right, isBlank c = true) ∧ (∀ c, t.head? = some c → isBlank c = false) ∧
      ∀ c, t.getLast? = some c → isBlank c = false

/-- What is left of a text is behind the blanks that it begins with. -/
theorem trimLeft_eq_iff {s t : List Char} : trimLeft s = t ↔
    ∃ left, s = left ++ t ∧ (∀ c ∈ left, isBlank c = true) ∧
      ∀ c, t.head? = some c → isBlank c = false := by
  constructor
  · rintro rfl
    refine ⟨s.takeWhile isBlank, List.takeWhile_append_dropWhile.symm,
      fun c hc => List.mem_takeWhile_imp hc, fun c hc => ?_⟩
    have first := List.head?_dropWhile_not isBlank s
    rw [← trimLeft, hc] at first
    simpa using first
  · rintro ⟨left, rfl, blank, head⟩
    rw [trimLeft_append blank, trimLeft_of_head head]

/-- What is left of a text is before the blanks that it ends in. -/
theorem trimRight_eq_iff {s t : List Char} : trimRight s = t ↔
    ∃ right, s = t ++ right ∧ (∀ c ∈ right, isBlank c = true) ∧
      ∀ c, t.getLast? = some c → isBlank c = false := by
  -- the end is trimmed like the beginning of what is reversed
  have reversed : trimRight s = t ↔ trimLeft s.reverse = t.reverse := List.reverse_eq_iff
  rw [reversed, trimLeft_eq_iff, List.head?_reverse]
  constructor
  · rintro ⟨left, hs, blank, last⟩
    exact ⟨left.reverse, by simpa using congrArg List.reverse hs, by simpa using blank, last⟩
  · rintro ⟨right, rfl, blank, last⟩
    exact ⟨right.reverse, List.reverse_append, by simpa using blank, last⟩

/-- A text is trimmed to what the blanks at its ends enclose. -/
theorem trim_eq_iff {s t : List Char} : trim s = t ↔ Trims s t := by
  constructor
  · rintro rfl
    obtain ⟨left, hs, hleft, first⟩ := trimLeft_eq_iff.mp (rfl : trimLeft s = _)
    obtain ⟨right, ht, hright, last⟩ := trimRight_eq_iff.mp (rfl : trimRight (trimLeft s) = _)
    refine ⟨left, right, ?_, hleft, hright, fun c hc => first c ?_, last⟩
    · rw [List.append_assoc, trim, ← ht]
      exact hs
    · rw [ht, List.head?_append, ← trim, hc]
      rfl
  · rintro ⟨left, right, rfl, hleft, hright, first, last⟩
    have ending : trimLeft (t ++ right) = t ++ right ∨ t = [] := by
      cases t with
      | nil => exact .inr rfl
      | cons c t => exact .inl (trimLeft_of_head first)
    rw [trim, List.append_assoc, trimLeft_append hleft]
    rcases ending with whole | rfl
    · rw [whole]
      exact trimRight_eq_iff.mpr ⟨right, rfl, hright, last⟩
    · rw [List.nil_append, trimLeft, List.dropWhile_eq_nil_iff.mpr hright]
      rfl

end Text

namespace Document
variable {doc : String}

/-- Line `l` of the document, counted from 1, without the carriage return at its end. -/
def IsLine (doc : String) (l : Nat) (line : List Char) : Prop :=
  ∃ i raw, l = i + 1 ∧ (doc.toList.splitOn '\n')[i]? = some raw ∧
    (raw = line ++ ['\r'] ∨ raw = line ∧ line.getLast? ≠ some '\r')

/-- Line `l` has a name before its first colon and the value behind it. -/
def Carries (doc : String) (l : Nat) (name value : String) : Prop :=
  ∃ line before, IsLine doc l line ∧ (∃ c ∈ line, isBlank c = false) ∧
    line = before ++ ':' :: value.toList ∧ ':' ∉ before ∧ Trims before name.toList

/-- Line `l` is not blank and has no colon. -/
def Stray (doc : String) (l : Nat) : Prop :=
  ∃ line, IsLine doc l line ∧ (∃ c ∈ line, isBlank c = false) ∧ ':' ∉ line

/-- A line has no carriage return at its end, or has lost the one that it had. -/
theorem dropReturn_eq_iff {raw line : List Char} : dropReturn raw = line ↔
    raw = line ++ ['\r'] ∨ raw = line ∧ line.getLast? ≠ some '\r' := by
  rw [dropReturn]
  split
  next ends =>
    obtain ⟨front, rfl⟩ := List.getLast?_eq_some_iff.mp ends
    rw [List.dropLast_concat, List.append_left_inj]
    constructor
    · exact .inl
    · rintro (same | ⟨rfl, other⟩)
      · exact same
      · exact absurd ends other
  next other =>
    constructor
    · rintro rfl
      exact .inr ⟨rfl, other⟩
    · rintro (rfl | ⟨same, -⟩)
      · exact absurd (List.getLast?_concat) other
      · exact same

theorem mem_numberedLines {line : List Char} {l : Nat} :
    (line, l) ∈ numberedLines doc ↔ IsLine doc l line := by
  rw [numberedLines, List.mk_mem_zipIdx_iff_le_and_getElem?_sub, List.getElem?_map,
    Option.map_eq_some_iff]
  simp only [dropReturn_eq_iff]
  constructor
  · rintro ⟨pos, raw, hraw, line⟩
    exact ⟨l - 1, raw, by omega, hraw, line⟩
  · rintro ⟨i, raw, rfl, hraw, line⟩
    exact ⟨by omega, raw, hraw, line⟩

theorem mem_writtenLines {line : List Char} {l : Nat} :
    (line, l) ∈ writtenLines doc ↔ IsLine doc l line ∧ ∃ c ∈ line, isBlank c = false := by
  rw [writtenLines, List.mem_filter, mem_numberedLines]
  simp

/-- A line is split at its first colon, and the name before it is trimmed. -/
theorem splitLine?_eq_some_iff {line : List Char} {name value : String} :
    splitLine? line = some (name, value) ↔
      ∃ before, line = before ++ ':' :: value.toList ∧ ':' ∉ before ∧ Trims before name.toList := by
  simp only [← trim_eq_iff]
  constructor
  · intro h
    rcases colon_cases line with less | ⟨before, after, first, rfl⟩
    · rw [splitLine?_of_notMem less] at h
      cases h
    · rw [splitLine?_colon first] at h
      cases h
      exact ⟨before, by simp, first, by simp⟩
  · rintro ⟨before, rfl, first, trimmed⟩
    rw [splitLine?_colon first, trimmed, String.ofList_toList, String.ofList_toList]

theorem splitLine?_eq_none_iff {line : List Char} : splitLine? line = none ↔ ':' ∉ line := by
  refine ⟨fun h colon => ?_, splitLine?_of_notMem⟩
  obtain ⟨before, after, rfl, first⟩ := List.eq_append_cons_of_mem colon
  rw [splitLine?_colon first] at h
  cases h

/-- The rows are what the lines of the document carry. -/
theorem mem_rows_iff {name : String} {row : Row} :
    (name, row) ∈ rows doc ↔ Carries doc row.line name row.text := by
  rw [mem_rows]
  constructor
  · rintro ⟨⟨line, _⟩, hl, rfl, split⟩
    obtain ⟨here, written⟩ := mem_writtenLines.mp hl
    obtain ⟨before, parts, first, trimmed⟩ := splitLine?_eq_some_iff.mp split
    exact ⟨line, before, here, written, parts, first, trimmed⟩
  · rintro ⟨line, before, here, written, parts, first, trimmed⟩
    exact ⟨(line, row.line), mem_writtenLines.mpr ⟨here, written⟩, rfl,
      splitLine?_eq_some_iff.mpr ⟨before, parts, first, trimmed⟩⟩

/-- The stray lines are those that are not blank and have no colon. -/
theorem mem_strayLines_iff {l : Nat} : l ∈ strayLines doc ↔ Stray doc l := by
  rw [mem_strayLines]
  constructor
  · rintro ⟨⟨line, _⟩, hl, rfl, unsplit⟩
    obtain ⟨here, written⟩ := mem_writtenLines.mp hl
    exact ⟨line, here, written, splitLine?_eq_none_iff.mp unsplit⟩
  · rintro ⟨line, here, written, less⟩
    exact ⟨(line, l), mem_writtenLines.mpr ⟨here, written⟩, rfl, splitLine?_eq_none_iff.mpr less⟩

/-! ### The table and the faults of lines -/

/-- The faults of the stray lines. -/
def syntaxFaults (doc : String) : List LineFault :=
  (strayLines doc).map (⟨·, .missingColon⟩)

/-- They are reported before what is found in the table. -/
theorem syntaxFaults_prefix (s : Schema) (limit : Nat) (native name doc : String) (v : Value) :
    syntaxFaults doc <+: (s.readWithin limit native name doc v).faults :=
  List.prefix_append ..

theorem mem_syntaxFaults {f : LineFault} :
    f ∈ syntaxFaults doc ↔ f.cause = .missingColon ∧ Stray doc f.line := by
  rw [← mem_strayLines_iff, syntaxFaults, List.mem_map]
  constructor
  · rintro ⟨l, stray, rfl⟩
    exact ⟨rfl, stray⟩
  · rintro ⟨cause, stray⟩
    exact ⟨f.line, stray, cause ▸ rfl⟩

/-- Under a name the table has the row of the last line that carries it. -/
theorem get?_table_iff {name : String} {row : Row} : (table doc).get? name = some row ↔
    Carries doc row.line name row.text ∧
      ∀ l value, Carries doc l name value → l ≤ row.line := by
  rw [get?_table, mem_rows_iff]
  refine and_congr_right fun _ => ?_
  exact ⟨fun last l value carries => last ⟨l, value⟩ (mem_rows_iff.mpr carries),
    fun last r hr => last r.line r.text (mem_rows_iff.mp hr)⟩

/-- The table has a row for a name if and only if it is that of the last line that carries the name,
and each stray line has one fault, in ascending order. -/
theorem table_exact (doc : String) :
    (∀ name l value, (table doc).get? name = some ⟨l, value⟩ ↔
      Carries doc l name value ∧ ∀ m other, Carries doc m name other → m ≤ l) ∧
    ((syntaxFaults doc).map LineFault.line).Pairwise (· < ·) ∧
    ∀ f, f ∈ syntaxFaults doc ↔ f.cause = .missingColon ∧ Stray doc f.line := by
  refine ⟨fun _ _ _ => get?_table_iff, ?_, fun _ => mem_syntaxFaults⟩
  have lines : (syntaxFaults doc).map LineFault.line = strayLines doc := by
    simp [syntaxFaults, Function.comp_def]
  rw [lines]
  exact pairwise_strayLines doc

end Document
end XdrText
