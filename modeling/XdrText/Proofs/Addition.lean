import XdrText.Proofs.Revision

/-!
# XdrText — rows at the end of a document

Rows can be added to a document as its final lines (`Document.addRows`).  The lines that were there
keep their numbers, so the table has what it had, overwritten by the rows that are added
(`Document.table_addRows`), and no line without a colon is added.
-/

namespace XdrText
open Text

namespace NameMap
variable {α : Type} {m n : NameMap α}

theorem mem_entries_of_get? {name : String} {a : α} (h : m.get? name = some a) :
    (name, a) ∈ m.entries := by
  obtain ⟨e, he, rfl⟩ := Option.map_eq_some_iff.mp h
  have same : e.1 = name := by simpa using List.find?_some he
  exact same ▸ List.mem_of_find?_eq_some he

/-- Maps that have the same under each name are the same. -/
theorem eq_of_get? (h : ∀ name, m.get? name = n.get? name) : m = n := by
  have sub : ∀ {m n : NameMap α}, (∀ name, m.get? name = n.get? name) →
      m.entries ⊆ n.entries := by
    intro m n h e he
    exact mem_entries_of_get? (h e.1 ▸ get?_of_mem he)
  have nodup : ∀ m : NameMap α, m.entries.Nodup := fun m =>
    m.sorted.imp fun lt same => String.ne_of_lt lt (congrArg Prod.fst same)
  have perm : m.entries.Perm n.entries :=
    (List.perm_ext_iff_of_nodup (nodup m) (nodup n)).mpr fun e =>
      ⟨fun he => sub h he, fun he => sub (fun name => (h name).symm) he⟩
  exact eq_of_entries (perm.eq_of_pairwise
    (fun a b _ _ lt gt => absurd gt (Std.not_gt_of_lt lt)) m.sorted n.sorted)

end NameMap

namespace Document

/-- The document with its last line ended. -/
def endLine (doc : String) : String :=
  if doc.toList.getLast?.all (· = '\n') then doc else doc ++ "\n"

/-- The document with a row for each name and value as its final lines. -/
def addRows (doc : String) (entries : List (String × String)) : String :=
  endLine doc ++ String.join (entries.map fun e => e.1 ++ ":" ++ e.2 ++ "\n")

/-- A carriage return at the end of a line is no part of its value. -/
def valueOf (value : String) : String :=
  String.ofList (dropReturn value.toList)

/-- The rows for names and values, of which the first stands on line `n`. -/
def rowsFrom (n : Nat) (entries : List (String × String)) : List (String × Row) :=
  (entries.zipIdx n).map fun e => (e.1.1, ⟨e.2, valueOf e.1.2⟩)

/-- The lines of a document with a line feed are those before it and those after it. -/
theorem splitOn_feed (before after : List Char) :
    (before ++ '\n' :: after).splitOn '\n' = before.splitOn '\n' ++ after.splitOn '\n' :=
  List.splitOnP_append_cons before after (by simp)

/-- What stands behind a document starts on a line of its own. -/
theorem splitOn_endLine (doc : String) :
    ∃ lines, (∀ rest, ((endLine doc).toList ++ rest).splitOn '\n' = lines ++ rest.splitOn '\n') ∧
      (doc.toList.splitOn '\n' = lines ∨ doc.toList.splitOn '\n' = lines ++ [[]]) := by
  rcases List.eq_nil_or_concat doc.toList with empty | ⟨front, c, ends⟩
  · refine ⟨[], fun rest => ?_, .inr ?_⟩
    · simp [endLine, empty]
    · rw [empty, List.splitOn_nil, List.nil_append]
  · rw [List.concat_eq_append] at ends
    by_cases feed : c = '\n'
    · subst feed
      refine ⟨front.splitOn '\n', fun rest => ?_, .inr ?_⟩
      · simp [endLine, ends, splitOn_feed]
      · rw [ends, splitOn_feed, List.splitOn_nil]
    · refine ⟨doc.toList.splitOn '\n', fun rest => ?_, .inl rfl⟩
      have open_ : endLine doc = doc ++ "\n" := if_neg (by simp [ends, feed])
      rw [open_, String.toList_append, List.append_assoc]
      exact splitOn_feed _ _

section
variable {entries : List (String × String)} (doc : String)

/-- A name and a value that stay on their line and are told apart by the first colon. -/
def OfRows (entries : List (String × String)) : Prop :=
  ∀ e ∈ entries, Name.Stands e.1 ∧ '\n' ∉ e.2.toList

variable (ok : OfRows entries)
include ok

/-- The lines that are added come after those that were there. -/
theorem writtenLines_addRows : ∃ n, writtenLines (addRows doc entries) = writtenLines doc ++
    (entries.map fun e => e.1.toList ++ ':' :: (valueOf e.2).toList).zipIdx n := by
  obtain ⟨lines, behind, own⟩ := splitOn_endLine doc
  let row (e : String × String) : List Char := e.1.toList ++ ':' :: e.2.toList
  have noFeed : ∀ l ∈ entries.map row, '\n' ∉ l := by
    intro l hl
    obtain ⟨e, he, rfl⟩ := List.mem_map.mp hl
    simp only [row, List.mem_append, List.mem_cons, not_or]
    exact ⟨(ok e he).1.noFeed, by decide, (ok e he).2⟩
  have added : (String.join (entries.map fun e => e.1 ++ ":" ++ e.2 ++ "\n")).toList =
      (entries.map row).flatMap (· ++ ['\n']) := by
    rw [String.toList_join, List.flatMap_map, List.flatMap_map]
    simp [row]
  have whole : (addRows doc entries).toList.splitOn '\n' = lines ++ (entries.map row ++ [[]]) := by
    rw [addRows, String.toList_append, behind, added, splitOn_feeds noFeed]
  have rows : (entries.map row).map dropReturn =
      entries.map fun e => e.1.toList ++ ':' :: (valueOf e.2).toList := by
    simp only [List.map_map, Function.comp_def, row, dropReturn_colon, valueOf,
      String.toList_ofList]
  -- an empty line at the end makes no difference to the lines that are written
  have last (n : Nat) : ((([[]] : List (List Char)).map dropReturn).zipIdx n).filter
      (fun l => !l.1.all isBlank) = [] := rfl
  have before : writtenLines doc =
      ((lines.map dropReturn).zipIdx 1).filter fun l => !l.1.all isBlank := by
    rw [writtenLines, numberedLines]
    rcases own with own | own
    · rw [own]
    · rw [own, List.map_append, List.zipIdx_append, List.filter_append, last, List.append_nil]
  refine ⟨1 + (lines.map dropReturn).length, ?_⟩
  rw [writtenLines, numberedLines, whole, List.map_append, List.map_append, List.zipIdx_append,
    List.filter_append, ← before, List.zipIdx_append, List.filter_append, last,
      List.append_nil, rows]
  congr 1
  refine List.filter_eq_self.mpr fun l hl => ?_
  obtain ⟨e, -, he⟩ := List.mem_map.mp (List.fst_mem_of_mem_zipIdx hl)
  have colon : isBlank ':' = false := by decide
  rw [← he]
  simp [colon]

/-- The rows that are added come after those that were there. -/
theorem rows_addRows : ∃ n, rows (addRows doc entries) = rows doc ++ rowsFrom n entries := by
  obtain ⟨n, lines⟩ := writtenLines_addRows doc ok
  refine ⟨n, ?_⟩
  rw [rows, lines, List.filterMap_append, ← rows]
  congr 1
  clear lines
  induction entries generalizing n with
  | nil => rfl
  | cons e es ih =>
      obtain ⟨stands, -⟩ := ok e List.mem_cons_self
      simp only [List.map_cons, List.zipIdx_cons, rowsFrom]
      rw [List.filterMap_cons_some (by rw [splitLine?_colon stands.noColon]; rfl),
        ih (fun x hx => ok x (List.mem_cons_of_mem _ hx)) (n + 1), stands.trimmed]
      simp [rowsFrom]

theorem strayLines_addRows : strayLines (addRows doc entries) = strayLines doc := by
  obtain ⟨n, lines⟩ := writtenLines_addRows doc ok
  rw [strayLines, lines, List.filter_append, List.map_append, ← strayLines]
  refine (congrArg (strayLines doc ++ ·) (List.map_eq_nil_iff.mpr ?_)).trans (List.append_nil _)
  refine List.filter_eq_nil_iff.mpr fun l hl => ?_
  obtain ⟨e, he, same⟩ := List.mem_map.mp (List.fst_mem_of_mem_zipIdx hl)
  rw [← same, splitLine?_colon (ok e he).1.noColon]
  simp

/-- The table has what it had, overwritten by the rows that are added. -/
theorem table_addRows : ∃ n, table (addRows doc entries) =
    (rowsFrom n entries).foldl (fun t r => t.insert r.1 r.2) (table doc) := by
  obtain ⟨n, rows⟩ := rows_addRows doc ok
  exact ⟨n, by rw [table, rows, List.foldl_append, ← table]⟩

end

end Document
end XdrText
