import XdrText.Proofs.Table

/-!
# XdrText — another value on a line

The value of a line can be replaced by another one (`Document.revise`).  That leaves all other lines
as they are, so the table of the document is the same except for the text of that row
(`Document.table_revise`): it has the same names, and each row stands on the line on which it stood.
-/

namespace XdrText
open Text

namespace NameMap
variable {α β : Type}

/-- A map is its list of entries. -/
theorem eq_of_entries {m n : NameMap α} (h : m.entries = n.entries) : m = n := by
  cases m
  cases n
  cases h
  rfl

/-- What `f` makes of the entry under each name. -/
def map (f : α → β) (m : NameMap α) : NameMap β :=
  ⟨m.entries.map fun e => (e.1, f e.2), List.pairwise_map.mpr m.sorted⟩

theorem names_map (f : α → β) (m : NameMap α) : (m.map f).names = m.names := by
  simp [names, map]

theorem size_map (f : α → β) (m : NameMap α) : (m.map f).size = m.size :=
  List.length_map _

/-- What an entry is changed into does not matter to its place. -/
theorem insertEntry_map (f : α → β) (name : String) (a : α) (es : List (String × α)) :
    insertEntry name (f a) (es.map fun e => (e.1, f e.2)) =
      (insertEntry name a es).map fun e => (e.1, f e.2) := by
  induction es with
  | nil => rfl
  | cons e es ih =>
      simp only [List.map_cons, insertEntry]
      by_cases below : name < e.1
      · simp [below]
      · by_cases same : name = e.1
        · simp [same]
        · simp [below, same, ih]

variable (f : α → β) (m : NameMap α)

/-- A new entry can be changed before or after it is put in. -/
theorem insert_map (name : String) (a : α) :
    (m.map f).insert name (f a) = (m.insert name a).map f :=
  eq_of_entries (insertEntry_map f name a m.entries)

theorem erase_map (name : String) : (m.map f).erase name = (m.erase name).map f := by
  refine eq_of_entries ?_
  simp only [erase, map, List.filter_map]
  rfl

/-- The entry of a name is changed where it is. -/
theorem get?_map (name : String) : (m.map f).get? name = (m.get? name).map f := by
  simp only [get?, map, List.find?_map, Option.map_map]
  rfl

theorem contains_map (name : String) : (m.map f).contains name = m.contains name := by
  rw [contains, get?_map, Option.isSome_map, contains]

/-- Which names there are is not changed. -/
theorem hasStart_map (start : String) : (m.map f).hasStart start = m.hasStart start := by
  simp only [hasStart, map, List.dropWhile_map, Function.comp_def]
  cases m.entries.dropWhile fun e => decide (e.1 < start) <;> rfl

/-- Rows that are put in one after the other can be changed before or after. -/
theorem foldl_map (es : List (String × α)) :
    (es.map fun e => (e.1, f e.2)).foldl (fun m e => m.insert e.1 e.2) (m.map f) =
      (es.foldl (fun m e => m.insert e.1 e.2) m).map f := by
  induction es generalizing m with
  | nil => rfl
  | cons e es ih => rw [List.map_cons, List.foldl_cons, List.foldl_cons, insert_map, ih]

variable {m}

/-- Names in a map are distinct, so each entry is found. -/
theorem get?_of_mem {name : String} {a : α} (h : (name, a) ∈ m.entries) : m.get? name = some a := by
  have first : ∀ e ∈ m.entries, e.1 = name → e = (name, a) := by
    have distinct : (m.entries.map Prod.fst).Nodup :=
      List.pairwise_map.mpr (m.sorted.imp fun lt => String.ne_of_lt lt)
    exact fun e he same => List.inj_on_of_nodup_map distinct he h same
  cases hf : m.entries.find? fun e => e.1 = name with
  | none => simpa using List.find?_eq_none.mp hf _ h
  | some e =>
      have same : e.1 = name := by simpa using List.find?_some hf
      rw [get?, hf, first e (List.mem_of_find?_eq_some hf) same]
      rfl

end NameMap

/-! ### Rows and tables -/

/-- The row, with another text if it stands on that line. -/
def Row.revised (line : Nat) (text : String) (r : Row) : Row :=
  if r.line = line then { r with text := text } else r

namespace Row
variable {line : Nat} {text : String}

/-- A row keeps its line. -/
theorem line_revised (r : Row) : (r.revised line text).line = r.line := by
  by_cases h : r.line = line <;> simp [revised, h]

/-- The row on the line has the new text. -/
theorem revised_of_eq {r : Row} (h : r.line = line) : r.revised line text = ⟨line, text⟩ := by
  simp [revised, h]

theorem revised_of_ne {r : Row} (h : r.line ≠ line) : r.revised line text = r :=
  if_neg h

end Row

namespace Table

/-- The table with another text in the row of a line. -/
def revised (line : Nat) (text : String) (t : Table) : Table :=
  t.map (Row.revised line text)

/-- A row of the table stands on that line. -/
def OnLine (line : Nat) (t : Table) : Prop :=
  ∃ name row, t.get? name = some row ∧ row.line = line

variable {line : Nat} {text : String} {t : Table}

/-- In a revised table each name has its row, revised. -/
theorem get?_revised (name : String) :
    (t.revised line text).get? name = (t.get? name).map (Row.revised line text) :=
  NameMap.get?_map _ _ name

/-- Rows can be taken before or after the revision. -/
theorem erase_revised (name : String) :
    NameMap.erase (t.revised line text) name = Table.revised line text (t.erase name) :=
  NameMap.erase_map _ _ name

/-- Which names are mentioned does not depend on texts. -/
theorem mentions_revised (name : String) :
    (t.revised line text).mentions name = t.mentions name := by
  simp only [mentions, revised, NameMap.contains_map, NameMap.hasStart_map]

/-- Without a row on that line there is nothing to change. -/
theorem revised_of_not_onLine (h : ¬ t.OnLine line) : t.revised line text = t := by
  refine NameMap.eq_of_entries ?_
  refine (List.map_congr_left fun e he => ?_).trans (List.map_id _)
  have other : e.2.line ≠ line := fun same => h ⟨e.1, e.2, NameMap.get?_of_mem he, same⟩
  rw [Row.revised_of_ne other]
  rfl

section
variable {name : String} {row : Row}

/-- The row that is revised is found with its new text. -/
theorem get?_revised_self (h : t.get? name = some row) (text : String) :
    (t.revised row.line text).get? name = some ⟨row.line, text⟩ := by
  rw [get?_revised, h, Option.map_some, Row.revised_of_eq rfl]

/-- Rows stay on different lines. -/
theorem Distinct.revised (ht : t.Distinct) (line : Nat) (text : String) :
    (t.revised line text).Distinct := by
  intro m n a b ha hb same
  rw [get?_revised] at ha hb
  obtain ⟨_, hm, rfl⟩ := Option.map_eq_some_iff.mp ha
  obtain ⟨_, hn, rfl⟩ := Option.map_eq_some_iff.mp hb
  rw [Row.line_revised, Row.line_revised] at same
  exact ht m n _ _ hm hn same

/-- The row on a line is the only one there. -/
theorem Distinct.revised_self (ht : t.Distinct) (h : t.get? name = some row) :
    t.revised row.line row.text = t := by
  refine NameMap.eq_of_entries ((List.map_congr_left fun e he => ?_).trans (List.map_id _))
  have found : t.get? e.1 = some e.2 := NameMap.get?_of_mem he
  by_cases here : e.2.line = row.line
  · obtain rfl : e.1 = name := ht _ _ _ _ found h here
    obtain rfl : e.2 = row := Option.some.inj (found.symm.trans h)
    rw [Row.revised_of_eq rfl]
    rfl
  · rw [Row.revised_of_ne here]
    rfl

/-- Without the row of a name there is none on its line. -/
theorem Distinct.not_onLine (ht : t.Distinct) (h : t.get? name = some row) {u : Table}
    (shrinks : ∀ n other, u.get? n = some other → t.get? n = some other)
    (gone : u.get? name = none) :
    ¬ u.OnLine row.line := by
  rintro ⟨n, other, hother, same⟩
  obtain rfl := ht n name other row (shrinks n other hother) h same
  rw [gone] at hother
  cases hother

/-- What is left after a row is taken away does not stand on its line. -/
theorem Distinct.not_onLine_erase (ht : t.Distinct) (h : t.get? name = some row) :
    ¬ OnLine row.line (t.erase name) := by
  refine ht.not_onLine h (fun n other hn => ?_) ?_
  · rw [NameMap.get?_erase] at hn
    split at hn
    · cases hn
    · exact hn
  · rw [NameMap.get?_erase, if_pos rfl]

end

end Table

/-! ### Steps -/

namespace Reading
variable {α : Type}

/-- The step does not depend on the text of the row on a line. -/
def Blind (x : Reading α) (t : Table) (line : Nat) : Prop :=
  ∀ text, x (t.revised line text) = { x t with rest := (x t).rest.revised line text }

/-- Whether a name is mentioned, and so whether an optional is inferred, does not depend on
texts. -/
theorem mentions_blind (name : String) (t : Table) (line : Nat) :
    (look fun t => Table.mentions t name).Blind t line := by
  intro text
  simp only [look, Table.mentions_revised]

/-- Nor does the line of a row. -/
theorem lineOf_blind (name : String) (t : Table) (line : Nat) : (lineOf name).Blind t line := by
  intro text
  have lines : Row.line ∘ Row.revised line text = Row.line := funext Row.line_revised
  simp only [lineOf, look, Table.get?_revised, Option.map_map, lines]

/-- Nor does taking a row away unread. -/
theorem discard_blind (name : String) (t : Table) (line : Nat) : (discard name).Blind t line := by
  intro text
  simp only [discard, Table.erase_revised]

end Reading

/-! ### Documents -/

namespace Document

/-- The line with another value behind its colon; a line without a colon has no value. -/
def reviseLine (value : String) (l : List Char) : List Char :=
  if ':' ∈ l then l.takeWhile (· ≠ ':') ++ ':' :: value.toList else l

/-- The document with another value on a line. -/
def revise (line : Nat) (value doc : String) : String :=
  String.ofList (['\n'].intercalate ((doc.toList.splitOn '\n').mapIdx fun i l =>
    if i + 1 = line then reviseLine value l else l))

/-- A value that stays on its line. -/
structure OneLine (value : String) : Prop where
  noFeed : '\n' ∉ value.toList
  noReturn : value.toList.getLast? ≠ some '\r'

/-- A settled text is a value, with a blank before it. -/
theorem oneLine_settled {x : String} (h : Settled x.toList) : OneLine (" " ++ x) := by
  have whole : (" " ++ x).toList = ' ' :: x.toList := by simp
  constructor
  · rw [whole]
    exact List.not_mem_cons_of_ne_of_not_mem (by decide) h.noFeed
  · rw [whole]
    exact h.noReturn

theorem notMem_of_mem_splitOn {α : Type} [BEq α] [LawfulBEq α] {c : α} {cs l : List α}
    (h : l ∈ cs.splitOn c) : c ∉ l := by
  induction cs generalizing l with
  | nil =>
      rw [List.splitOn_nil] at h
      cases List.mem_singleton.mp h
      exact List.not_mem_nil
  | cons a cs ih =>
      rw [List.splitOn_cons_eq_if_modifyHead] at h
      split at h
      · rcases List.mem_cons.mp h with rfl | h
        · simp
        · exact ih h
      next ne =>
        obtain ⟨first, rest, hs⟩ := List.exists_cons_of_ne_nil (List.splitOn_ne_nil c cs)
        rw [hs, List.modifyHead_cons] at h
        rcases List.mem_cons.mp h with rfl | h
        · have apart : c ≠ a := fun same => ne (beq_iff_eq.mpr same.symm)
          exact List.not_mem_cons_of_ne_of_not_mem apart (ih (hs ▸ List.mem_cons_self))
        · exact ih (hs ▸ List.mem_cons_of_mem _ h)

/-! A line without a colon, and a line at its first colon -/

/-- A line has no colon, or is parted at its first one. -/
theorem colon_cases (l : List Char) :
    ':' ∉ l ∨ ∃ name value, ':' ∉ name ∧ l = name ++ ':' :: value := by
  by_cases h : ':' ∈ l
  · obtain ⟨name, value, same, first⟩ := List.eq_append_cons_of_mem h
    exact .inr ⟨name, value, first, same⟩
  · exact .inl h

/-- A line without a colon is left alone. -/
theorem reviseLine_of_notMem {value : String} {l : List Char} (h : ':' ∉ l) :
    reviseLine value l = l :=
  if_neg h

theorem splitLine?_of_notMem {l : List Char} (h : ':' ∉ l) : splitLine? l = none := by
  have all : l.dropWhile (· ≠ ':') = [] :=
    List.dropWhile_eq_nil_iff.mpr fun _ hc => decide_eq_true fun same => h (same ▸ hc)
  rw [splitLine?, all]

section
variable {name : List Char} (h : ':' ∉ name) (value : List Char)
include h

theorem ne_colon : ∀ c ∈ name, decide (c ≠ ':') = true :=
  fun _ hc => decide_eq_true fun same => h (same ▸ hc)

/-- Behind the first colon of a line stands the new value, and before it what stood there. -/
theorem reviseLine_colon (text : String) :
    reviseLine text (name ++ ':' :: value) = name ++ ':' :: text.toList := by
  rw [reviseLine, if_pos (List.mem_append_right _ List.mem_cons_self),
    List.takeWhile_append_of_pos (ne_colon h)]
  simp

theorem splitLine?_colon :
    splitLine? (name ++ ':' :: value) = some (String.ofList (trim name), String.ofList value) := by
  simp only [splitLine?]
  rw [List.dropWhile_append_of_pos (ne_colon h), List.takeWhile_append_of_pos (ne_colon h)]
  simp

end

/-- A carriage return stands in the value. -/
theorem dropReturn_colon (name value : List Char) :
    dropReturn (name ++ ':' :: value) = name ++ ':' :: dropReturn value := by
  cases value with
  | nil => simp [dropReturn]
  | cons c cs =>
      by_cases h : (c :: cs).getLast? = some '\r'
      · simp [dropReturn, h, List.getLast?_append]
      · simp [dropReturn, h, List.getLast?_append]

/-- A carriage return at the end belongs to the value, so it goes with it. -/
theorem dropReturn_reviseLine {value : String} (one : OneLine value) (l : List Char) :
    dropReturn (reviseLine value l) = reviseLine value (dropReturn l) := by
  rcases colon_cases l with h | ⟨name, old, h, rfl⟩
  · have less : ':' ∉ dropReturn l := by
      rw [dropReturn]
      split
      · exact fun hc => h (List.dropLast_subset l hc)
      · exact h
    rw [reviseLine_of_notMem h, reviseLine_of_notMem less]
  · rw [dropReturn_colon, reviseLine_colon h, reviseLine_colon h, dropReturn_colon]
    rw [dropReturn, if_neg one.noReturn]

section
variable {value : String}

/-- A revised line is blank where the line was blank, as a colon is not. -/
theorem all_isBlank_reviseLine (l : List Char) :
    (reviseLine value l).all isBlank = l.all isBlank := by
  have colon : isBlank ':' = false := by decide
  rcases colon_cases l with h | ⟨name, old, h, rfl⟩
  · rw [reviseLine_of_notMem h]
  · rw [reviseLine_colon h]
    simp [colon]

/-- The revised line is split into the same name and the new value. -/
theorem splitLine?_reviseLine (l : List Char) :
    splitLine? (reviseLine value l) = (splitLine? l).map fun p => (p.1, value) := by
  rcases colon_cases l with h | ⟨name, old, h, rfl⟩
  · rw [reviseLine_of_notMem h, splitLine?_of_notMem h]
    rfl
  · rw [reviseLine_colon h, splitLine?_colon h, splitLine?_colon h]
    simp

theorem notMem_reviseLine (one : OneLine value) {l : List Char} (h : '\n' ∉ l) :
    '\n' ∉ reviseLine value l := by
  rw [reviseLine]
  split
  · simp only [List.mem_append, List.mem_cons, not_or]
    exact ⟨fun hm => h (List.takeWhile_subset _ hm), by decide, one.noFeed⟩
  · exact h

end

/-! Documents -/

section
variable (line : Nat) {value : String} (doc : String)

/-- What becomes of a line that is numbered. -/
def reviseNumbered (value : String) (l : List Char × Nat) : List Char × Nat :=
  (if l.2 = line then reviseLine value l.1 else l.1, l.2)

variable (one : OneLine value)
include one

/-- The lines are revised one by one, and keep their numbers. -/
theorem numberedLines_revise :
    numberedLines (revise line value doc) = (numberedLines doc).map
      (reviseNumbered line value) := by
  have lines : (revise line value doc).toList.splitOn '\n' =
      (doc.toList.splitOn '\n').mapIdx fun i l =>
        if i + 1 = line then reviseLine value l else l := by
    rw [revise, String.toList_ofList, List.splitOn_intercalate]
    · intro l hl
      obtain ⟨i, hi, rfl⟩ := List.mem_mapIdx.mp hl
      have noFeed := notMem_of_mem_splitOn (List.getElem_mem hi)
      split
      · exact notMem_reviseLine one noFeed
      · exact noFeed
    · simp
  rw [numberedLines, lines, numberedLines]
  refine List.ext_getElem (by simp) fun i _ _ => ?_
  simp only [List.getElem_zipIdx, List.getElem_map, List.getElem_mapIdx,
    reviseNumbered, Nat.add_comm 1]
  split
  · rw [dropReturn_reviseLine one]
  · rfl

/-- So it is with the lines that are not blank. -/
theorem writtenLines_revise :
    writtenLines (revise line value doc) = (writtenLines doc).map (reviseNumbered line value) := by
  rw [writtenLines, numberedLines_revise line doc one, List.filter_map, writtenLines]
  congr 1
  refine List.filter_congr fun l _ => ?_
  simp only [Function.comp_apply, reviseNumbered]
  split
  · rw [all_isBlank_reviseLine]
  · rfl

/-- The lines without a colon are the same. -/
theorem strayLines_revise : strayLines (revise line value doc) = strayLines doc := by
  rw [strayLines, writtenLines_revise line doc one, List.filter_map, List.map_map, strayLines]
  congr 1
  refine List.filter_congr fun l _ => ?_
  simp only [Function.comp_apply, reviseNumbered]
  split
  · rw [splitLine?_reviseLine, Option.isNone_map]
  · rfl

/-- The rows are revised one by one. -/
theorem rows_revise :
    rows (revise line value doc) = (rows doc).map fun r => (r.1, r.2.revised line value) := by
  rw [rows, writtenLines_revise line doc one, List.filterMap_map, rows, List.map_filterMap]
  refine List.filterMap_congr fun l _ => ?_
  simp only [Function.comp_apply, reviseNumbered, Option.map_map]
  by_cases h : l.2 = line
  · rw [if_pos h, splitLine?_reviseLine, Option.map_map]
    refine Option.map_congr fun p _ => ?_
    simp [Row.revised, h]
  · rw [if_neg h]
    refine Option.map_congr fun p _ => ?_
    simp [Row.revised, h]

/-- The table of the revised document is the revised table. -/
theorem table_revise : table (revise line value doc) = (table doc).revised line value := by
  rw [table, rows_revise line doc one]
  exact NameMap.foldl_map (Row.revised line value) .empty (rows doc)

end

end Document
end XdrText
