import Mathlib.Data.List.Nodup
import Mathlib.Data.List.Range
import XdrText.Proofs.Document

/-!
# XdrText — the table of any document

The lines of a document are counted upwards, and each row and each line without a colon is one of
them.  The table holds, under each name, the last row that carries it (`Document.get?_table`); so no
two names of a table have their rows on one line (`Document.table_distinct`).
-/

namespace XdrText
open Text

namespace NameMap
variable {α : Type}

theorem get?_empty (name : String) : (empty : NameMap α).get? name = none :=
  rfl

/-- Of the entries put under a name the last one counts. -/
theorem get?_foldl {name : String} {a : α} {es : List (String × α)} :
    (es.foldl (fun m e => m.insert e.1 e.2) empty).get? name = some a ↔
      ∃ before after, es = before ++ (name, a) :: after ∧ name ∉ after.map Prod.fst := by
  constructor
  · intro h
    induction es using List.reverseRecOn with
    | nil => simp [get?_empty] at h
    | append_singleton es e ih =>
        rw [List.foldl_concat, get?_insert] at h
        by_cases same : e.1 = name
        · rw [if_pos same] at h
          cases same
          cases h
          exact ⟨es, [], rfl, by simp⟩
        · rw [if_neg same] at h
          obtain ⟨before, after, rfl, fresh⟩ := ih h
          refine ⟨before, after ++ [e], by simp, ?_⟩
          rw [List.map_append, List.mem_append, not_or]
          exact ⟨fresh, by simpa using Ne.symm same⟩
  · rintro ⟨before, after, rfl, fresh⟩
    rw [List.foldl_append, List.foldl_cons, get?_foldl_of_notMem fresh, get?_insert, if_pos rfl]

/-- A name without an entry leaves nothing to be taken. -/
theorem erase_of_get?_eq_none {m : NameMap α} {name : String} (h : m.get? name = none) :
    m.erase name = m := by
  obtain ⟨es, sorted⟩ := m
  rw [get?, Option.map_eq_none_iff, List.find?_eq_none] at h
  simp only [erase, mk.injEq, List.filter_eq_self]
  simpa using h

/-! ### Names with a common beginning -/

/-- A map contains the names that it has entries for. -/
theorem contains_iff {m : NameMap α} {name : String} : m.contains name = true ↔ name ∈ m.names := by
  rw [contains, get?, Option.isSome_map, List.find?_isSome]
  simp [names]

/-- What begins with a text does not come before it. -/
theorem not_lt_of_begins : ∀ {start x : List Char}, start <+: x → ¬ x < start
  | [], _, _ => List.not_lt_nil _
  | _ :: _, [], begins => absurd (List.prefix_nil.mp begins) (by simp)
  | c :: start, d :: x, begins => by
      obtain ⟨rfl, inner⟩ := List.cons_prefix_cons.mp begins
      rw [List.cons_lt_cons_iff]
      rintro (lt | ⟨-, lt⟩)
      · exact Std.lt_irrefl lt
      · exact not_lt_of_begins inner lt

/-- What stands between a text and one that begins with it begins with it as well. -/
theorem begins_of_between : ∀ {start x y : List Char}, ¬ x < start → ¬ y < x → start <+: y →
    start <+: x
  | [], _, _, _, _, _ => List.nil_prefix
  | _ :: _, [], _, low, _, _ => absurd (List.nil_lt_cons _ _) low
  | _ :: _, _ :: _, [], _, _, begins => absurd (List.prefix_nil.mp begins) (by simp)
  | c :: start, d :: x, e :: y, low, high, begins => by
      obtain ⟨rfl, inner⟩ := List.cons_prefix_cons.mp begins
      rw [List.cons_lt_cons_iff, not_or, not_and] at low high
      obtain rfl := Std.le_antisymm (Std.not_lt.mp low.1) (Std.not_lt.mp high.1)
      exact List.cons_prefix_cons.mpr ⟨rfl, begins_of_between (low.2 rfl) (high.2 rfl) inner⟩

/-- The names that begin with a text are neighbours, and the first of them is the first name that is
not below the text. -/
theorem hasStart_iff {m : NameMap α} {start : String} :
    m.hasStart start = true ↔ ∃ n ∈ m.names, Name.startsWith start n = true := by
  obtain ⟨es, sorted⟩ := m
  simp only [hasStart, names, List.mem_map, Name.startsWith, List.isPrefixOf_iff_prefix,
    exists_exists_and_eq_and]
  induction es with
  | nil => simp
  | cons e es ih =>
      obtain ⟨first, ascending⟩ := List.pairwise_cons.mp sorted
      by_cases low : e.1 < start
      · rw [List.dropWhile_cons_of_pos (by simpa using low), ih ascending]
        simp only [List.exists_mem_cons_iff, iff_or_self]
        exact fun begins => absurd low (not_lt_of_begins begins)
      · rw [List.dropWhile_cons_of_neg (by simpa using low)]
        simp only [List.isPrefixOf_iff_prefix]
        refine ⟨fun begins => ⟨e, List.mem_cons_self, begins⟩, ?_⟩
        rintro ⟨x, hx, begins⟩
        rcases List.mem_cons.mp hx with rfl | hx
        · exact begins
        · exact begins_of_between low (Std.not_gt_of_lt (first x hx)) begins

end NameMap

namespace Name

/-- The name itself, or one that goes on with a dot or a bracket. -/
def Extends (name n : String) : Prop :=
  n = name ∨ startsWith (name ++ ".") n = true ∨ startsWith (name ++ "[") n = true

/-- A child goes on from its name, but for the root. -/
theorem Extends.child {name : String} (ne : name ≠ "") (field : String) :
    Extends name (Name.child name field) :=
  .inr (.inl (by simp [startsWith, Name.child, ne, List.isPrefixOf_iff_prefix]))

/-- What goes on from a name is below it. -/
theorem Extends.below {name n : String} (h : Extends name n) : Below name n := by
  rcases h with rfl | h | h
  · exact .refl _
  · obtain ⟨rest, hr⟩ := List.isPrefixOf_iff_prefix.mp h
    exact .inr (.inr ⟨'.', rest, by rw [← hr]; simp, rfl⟩)
  · obtain ⟨rest, hr⟩ := List.isPrefixOf_iff_prefix.mp h
    exact .inr (.inr ⟨'[', rest, by rw [← hr]; simp, rfl⟩)

end Name

namespace Table

/-- A node is mentioned by any row below its name. -/
theorem mentions_iff {t : Table} {name : String} :
    t.mentions name = true ↔ ∃ n ∈ t.names, Name.Extends name n := by
  simp only [mentions, Bool.or_eq_true, NameMap.contains_iff, NameMap.hasStart_iff, Name.Extends]
  constructor
  · rintro ((h | ⟨n, hn, h⟩) | ⟨n, hn, h⟩)
    · exact ⟨name, h, .inl rfl⟩
    · exact ⟨n, hn, .inr (.inl h)⟩
    · exact ⟨n, hn, .inr (.inr h)⟩
  · rintro ⟨n, hn, rfl | h | h⟩
    · exact .inl (.inl hn)
    · exact .inl (.inr ⟨n, hn, h⟩)
    · exact .inr ⟨n, hn, h⟩

/-- No two names have their rows on one line. -/
def Distinct (t : Table) : Prop :=
  ∀ m n a b, t.get? m = some a → t.get? n = some b → a.line = b.line → m = n

end Table

namespace Document
variable {doc : String}

/-! ### Lines -/

/-- Lines are numbered in their order. -/
theorem pairwise_numberedLines (doc : String) :
    (numberedLines doc).Pairwise fun a b => a.2 < b.2 := by
  rw [numberedLines]
  generalize (doc.toList.splitOn '\n').map dropReturn = ls
  have counted : (ls.zipIdx 1).map Prod.snd = List.range' 1 ls.length := List.zipIdx_map_snd 1 ls
  exact List.pairwise_map.mp (counted ▸ List.pairwise_lt_range')

/-- So are those that are not blank. -/
theorem pairwise_writtenLines (doc : String) :
    (writtenLines doc).Pairwise fun a b => a.2 < b.2 :=
  (pairwise_numberedLines doc).filter _

/-- Lines are counted from 1. -/
theorem le_of_mem_writtenLines {l : List Char × Nat} (h : l ∈ writtenLines doc) :
    1 ≤ l.2 ∧ l.2 ≤ (numberedLines doc).length := by
  have numbered := List.mem_of_mem_filter h
  rw [numberedLines] at numbered
  refine ⟨List.le_snd_of_mem_zipIdx numbered, ?_⟩
  have below := List.snd_lt_add_of_mem_zipIdx numbered
  rw [numberedLines, List.length_zipIdx]
  omega

/-- A line is told by its number. -/
theorem eq_of_mem_writtenLines {l m : List Char × Nat} (hl : l ∈ writtenLines doc)
    (hm : m ∈ writtenLines doc) (same : l.2 = m.2) : l = m := by
  have distinct : ((writtenLines doc).map Prod.snd).Nodup :=
    List.pairwise_map.mpr ((pairwise_writtenLines doc).imp Nat.ne_of_lt)
  exact List.inj_on_of_nodup_map distinct hl hm same

/-- A row is a line with a colon. -/
theorem mem_rows {name : String} {row : Row} : (name, row) ∈ rows doc ↔
    ∃ l ∈ writtenLines doc, l.2 = row.line ∧ splitLine? l.1 = some (name, row.text) := by
  simp only [rows, List.mem_filterMap, Option.map_eq_some_iff]
  constructor
  · rintro ⟨l, hl, p, hp, same⟩
    cases same
    exact ⟨l, hl, rfl, hp⟩
  · rintro ⟨l, hl, line, split⟩
    exact ⟨l, hl, _, split, by rw [line]⟩

/-- The stray lines are those that are not blank and cannot be split. -/
theorem mem_strayLines {line : Nat} : line ∈ strayLines doc ↔
    ∃ l ∈ writtenLines doc, l.2 = line ∧ splitLine? l.1 = none := by
  simp only [strayLines, List.mem_map, List.mem_filter, Option.isNone_iff_eq_none, and_assoc]
  exact exists_congr fun l => and_congr_right fun _ => and_comm

theorem pairwise_strayLines (doc : String) : (strayLines doc).Pairwise (· < ·) :=
  List.pairwise_map.mpr ((pairwise_writtenLines doc).filter _)

/-- No stray line is counted twice. -/
theorem nodup_strayLines (doc : String) : (strayLines doc).Nodup :=
  (pairwise_strayLines doc).imp Nat.ne_of_lt

/-- A line with a colon is not one without. -/
theorem notMem_strayLines {name : String} {row : Row} (h : (name, row) ∈ rows doc) :
    row.line ∉ strayLines doc := by
  intro stray
  obtain ⟨l, hl, line, split⟩ := mem_rows.mp h
  obtain ⟨m, hm, line', unsplit⟩ := mem_strayLines.mp stray
  rw [eq_of_mem_writtenLines hm hl (line'.trans line.symm), split] at unsplit
  cases unsplit

/-- The rows stand on lines in their order. -/
theorem pairwise_rows (doc : String) :
    (rows doc).Pairwise fun a b => a.2.line < b.2.line := by
  rw [rows, List.pairwise_filterMap]
  refine (pairwise_writtenLines doc).imp ?_
  intro l m lt a ha b hb
  obtain ⟨_, -, rfl⟩ := Option.map_eq_some_iff.mp ha
  obtain ⟨_, -, rfl⟩ := Option.map_eq_some_iff.mp hb
  exact lt

/-! ### The table -/

/-- The rows of the table are the last ones of their names. -/
theorem get?_table {name : String} {row : Row} : (table doc).get? name = some row ↔
    (name, row) ∈ rows doc ∧ ∀ r, (name, r) ∈ rows doc → r.line ≤ row.line := by
  have ascending := pairwise_rows doc
  constructor
  · intro h
    obtain ⟨before, after, same, fresh⟩ := NameMap.get?_foldl.mp h
    refine ⟨same ▸ List.mem_append_right _ List.mem_cons_self, fun r hr => ?_⟩
    rw [same] at hr ascending
    rcases List.mem_append.mp hr with hr | hr
    · exact ((List.pairwise_append.mp ascending).2.2 _ hr _ List.mem_cons_self).le
    · rcases List.mem_cons.mp hr with hr | hr
      · cases hr
        exact Nat.le_refl _
      · exact absurd (List.mem_map_of_mem hr) fresh
  · rintro ⟨hrow, last⟩
    obtain ⟨before, after, same⟩ := List.append_of_mem hrow
    refine NameMap.get?_foldl.mpr ⟨before, after, same, fun later => ?_⟩
    obtain ⟨⟨_, r⟩, hr, rfl⟩ := List.mem_map.mp later
    rw [same] at ascending last
    have above := (List.pairwise_cons.mp (List.pairwise_append.mp ascending).2.1).1 _ hr
    exact Nat.not_le_of_lt above (last r (List.mem_append_right _ (List.mem_cons_of_mem _ hr)))

/-- No two names of the table have their rows on one line. -/
theorem table_distinct (doc : String) : (table doc).Distinct := by
  intro m n a b ha hb same
  obtain ⟨l, hl, la, sa⟩ := mem_rows.mp (get?_table.mp ha).1
  obtain ⟨k, hk, lb, sb⟩ := mem_rows.mp (get?_table.mp hb).1
  obtain rfl := eq_of_mem_writtenLines hl hk (by omega)
  exact (Prod.mk.inj (Option.some.inj (sa.symm.trans sb))).1

end Document
end XdrText
