import Mathlib.Data.List.Perm.Subperm
import XdrText.Proofs.Name
import XdrText.Reader
import XdrText.Writer

/-!
# XdrText — documents that are written

A line fits when its name stands in front of a colon and its text is settled.  A document of lines
that fit has a row for each of them and no stray line (`Document.rows_text`), and where their names
are distinct the table finds each (`Document.holds_table`).
-/

namespace XdrText
open Text

namespace NameMap
variable {α : Type}

/-- Entries of other names that are put in make no difference. -/
theorem get?_foldl_of_notMem {name : String} :
    ∀ {es : List (String × α)} {m : NameMap α}, name ∉ es.map Prod.fst →
      (es.foldl (fun m e => m.insert e.1 e.2) m).get? name = m.get? name
  | [], _, _ => rfl
  | e :: es, m, h => by
      rw [List.map_cons, List.mem_cons, not_or] at h
      rw [List.foldl_cons, get?_foldl_of_notMem h.2, get?_insert, if_neg (Ne.symm h.1)]

/-- Among entries put under distinct names each is found. -/
theorem get?_foldl_of_mem {name : String} {a : α} :
    ∀ {es : List (String × α)} {m : NameMap α}, (es.map Prod.fst).Nodup → (name, a) ∈ es →
      (es.foldl (fun m e => m.insert e.1 e.2) m).get? name = some a
  | e :: es, m, nodup, h => by
      rw [List.map_cons, List.nodup_cons] at nodup
      rw [List.foldl_cons]
      rcases List.mem_cons.mp h with rfl | h
      · rw [get?_foldl_of_notMem nodup.1, get?_insert, if_pos rfl]
      · exact get?_foldl_of_mem nodup.2 h

theorem mem_names_of_get? {m : NameMap α} {name : String} {a : α} (h : m.get? name = some a) :
    name ∈ m.names := by
  obtain ⟨e, he, -⟩ := Option.map_eq_some_iff.mp h
  have same : e.1 = name := by simpa using List.find?_some he
  exact same ▸ List.mem_map_of_mem (List.mem_of_find?_eq_some he)

end NameMap

/-- A name that is found again in front of a colon: it stays on its line, has no colon, and no blank
at either end. -/
structure Name.Stands (name : String) : Prop where
  noFeed : '\n' ∉ name.toList
  noColon : ':' ∉ name.toList
  trimmed : trim name.toList = name.toList

/-- A plain name is found again in front of a colon. -/
theorem Name.Plain.stands {name : String} (h : Name.Plain name) : Name.Stands name where
  noFeed hm := ne_of_isBlank (h _ hm).1 (by decide) rfl
  noColon hm := (h _ hm).2 rfl
  trimmed := by
    have left : trimLeft name.toList = name.toList :=
      trimLeft_of_head fun c hc => (h c (List.mem_of_head? hc)).1
    have right : name.toList.reverse.dropWhile isBlank = name.toList.reverse :=
      trimLeft_of_head fun c hc => (h c (List.mem_reverse.mp (List.mem_of_head? hc))).1
    rw [trim, left, trimRight, right, List.reverse_reverse]

namespace Line

/-- A line whose name and text are found again when it is read. -/
structure Fits (l : Line) : Prop where
  stands : Name.Stands l.name
  settled : Settled l.text.toList

/-- The characters of a line. -/
def content (l : Line) : List Char :=
  l.name.toList ++ ':' :: ' ' :: l.text.toList

/-- The value behind the colon of a line. -/
def value (l : Line) : String :=
  String.ofList (' ' :: l.text.toList)

variable {l : Line}

theorem toList_render (l : Line) : l.render.toList = l.content ++ ['\n'] := by
  simp [render, content]

/-- A line is one line. -/
theorem Fits.noFeed (h : l.Fits) : '\n' ∉ l.content := by
  simp only [content, List.mem_append, List.mem_cons, not_or]
  exact ⟨h.stands.noFeed, by decide, by decide, h.settled.noFeed⟩

/-- No carriage return is lost. -/
theorem Fits.dropReturn_content (h : l.Fits) : Document.dropReturn l.content = l.content := by
  refine if_neg fun hr => ?_
  have blank : isBlank '\r' = true := by decide
  rw [content, List.getLast?_append_cons, List.getLast?_cons_cons, List.getLast?_cons] at hr
  cases ht : l.text.toList.getLast? with
  | none => rw [ht] at hr; exact absurd hr (by decide)
  | some c => rw [ht] at hr; exact ne_of_isBlank (h.settled.last c ht).1 blank (Option.some.inj hr)

/-- A line has a colon, so it is not blank. -/
theorem not_all_isBlank (l : Line) : l.content.all isBlank = false := by
  have colon : isBlank ':' = false := by decide
  simp [content, colon]

/-- A line is split into its name and its value. -/
theorem Fits.splitLine?_content (h : l.Fits) :
    Document.splitLine? l.content = some (l.name, l.value) := by
  have keep : ∀ c ∈ l.name.toList, decide (c ≠ ':') = true := fun c hc => by
    rw [decide_eq_true_iff]
    rintro rfl
    exact h.stands.noColon hc
  simp only [Document.splitLine?, content]
  rw [List.dropWhile_append_of_pos keep, List.takeWhile_append_of_pos keep]
  simp [h.stands.trimmed, value]

end Line

/-- A table has the row of each line. -/
def Table.Holds (t : Table) (lines : List Line) : Prop :=
  ∀ l ∈ lines, ∃ n, t.get? l.name = some ⟨n, l.value⟩

namespace Document
variable {w : Written}

/-- A text of lines that are ended is split into the lines, and nothing behind the last one. -/
theorem splitOn_feeds : ∀ {xs : List (List Char)}, (∀ x ∈ xs, '\n' ∉ x) →
    (xs.flatMap (· ++ ['\n'])).splitOn '\n' = xs ++ [[]]
  | [], _ => rfl
  | x :: xs, h => by
      have first : ∀ c ∈ x, (c == '\n') = false := fun c hc => by
        simp only [beq_eq_false_iff_ne]
        rintro rfl
        exact h x List.mem_cons_self hc
      have rest := splitOn_feeds fun y hy => h y (List.mem_cons_of_mem _ hy)
      simp only [List.splitOn] at rest ⊢
      rw [List.flatMap_cons, List.append_assoc, List.singleton_append,
        List.splitOnP_append_cons_of_forall_mem first _ (by simp), rest, List.cons_append]

/-- The lines of a document are those that it was made of, and an empty one at its end. -/
theorem numberedLines_text (h : ∀ l ∈ w.lines, l.Fits) :
    numberedLines w.text = (w.lines.map Line.content ++ [[]]).zipIdx 1 := by
  -- each line and the feed behind it
  have doc : w.text.toList = (w.lines.map Line.content).flatMap (· ++ ['\n']) := by
    rw [Written.text, String.toList_join, List.flatMap_map, List.flatMap_map]
    simp only [Line.toList_render]
  have noFeed : ∀ x ∈ w.lines.map Line.content, '\n' ∉ x := by
    intro x hx
    obtain ⟨l, hl, rfl⟩ := List.mem_map.mp hx
    exact (h l hl).noFeed
  rw [numberedLines, doc, splitOn_feeds noFeed, List.map_append, List.map_map]
  congr 2
  exact List.map_congr_left fun l hl => (h l hl).dropReturn_content

/-- The lines that were written are the lines of the document, in their order. -/
theorem writtenLines_text (h : ∀ l ∈ w.lines, l.Fits) :
    writtenLines w.text = (w.lines.map Line.content).zipIdx 1 := by
  rw [writtenLines, numberedLines_text h, List.zipIdx_append, List.filter_append]
  have kept : ((w.lines.map Line.content).zipIdx 1).filter (fun l => !l.1.all isBlank) =
      (w.lines.map Line.content).zipIdx 1 := by
    refine List.filter_eq_self.mpr fun x hx => ?_
    obtain ⟨l, -, hl⟩ := List.mem_map.mp (List.fst_mem_of_mem_zipIdx hx)
    rw [← hl, Line.not_all_isBlank]
    rfl
  rw [kept]
  simp

/-- Each line is a row. -/
theorem rows_text (h : ∀ l ∈ w.lines, l.Fits) :
    rows w.text = (w.lines.zipIdx 1).map fun l => (l.1.name, ⟨l.2, l.1.value⟩) := by
  rw [rows, writtenLines_text h]
  generalize 1 = i
  generalize w.lines = ls at h ⊢
  induction ls generalizing i with
  | nil => rfl
  | cons l ls ih =>
      simp only [List.map_cons, List.zipIdx_cons]
      rw [List.filterMap_cons_some (by rw [(h l List.mem_cons_self).splitLine?_content]; rfl),
        ih (i + 1) fun x hx => h x (List.mem_cons_of_mem _ hx)]

/-- No line that was written is without a colon. -/
theorem strayLines_text (h : ∀ l ∈ w.lines, l.Fits) : strayLines w.text = [] := by
  rw [strayLines, writtenLines_text h, List.map_eq_nil_iff, List.filter_eq_nil_iff]
  intro x hx
  obtain ⟨l, hl, hx⟩ := List.mem_map.mp (List.fst_mem_of_mem_zipIdx hx)
  rw [← hx, (h l hl).splitLine?_content]
  simp

/-- The rows of a document that was written have the names of the lines. -/
theorem names_rows (h : ∀ l ∈ w.lines, l.Fits) :
    (rows w.text).map Prod.fst = w.lines.map Line.name := by
  rw [rows_text h, List.map_map]
  have names : (fun l : Line × Nat => l.1.name) = Line.name ∘ Prod.fst := rfl
  exact (congrArg (List.map · _) names).trans (by rw [← List.map_map, List.zipIdx_map_fst])

/-- The table of a document finds each of its lines where their names are distinct. -/
theorem holds_table (h : ∀ l ∈ w.lines, l.Fits) (nodup : (w.lines.map Line.name).Nodup) :
    (table w.text).Holds w.lines := by
  intro l hl
  obtain ⟨i, hi⟩ := List.mem_iff_getElem?.mp hl
  refine ⟨1 + i, NameMap.get?_foldl_of_mem (names_rows h ▸ nodup) ?_⟩
  rw [rows_text h]
  exact List.mem_map_of_mem (List.mk_add_mem_zipIdx_iff_getElem?.mpr hi)

/-- Where names are distinct, the table has a row for each line. -/
theorem length_le_size (h : ∀ l ∈ w.lines, l.Fits) (nodup : (w.lines.map Line.name).Nodup) :
    w.lines.length ≤ (table w.text).size := by
  have found : w.lines.map Line.name ⊆ (table w.text).names := by
    intro name hname
    obtain ⟨l, hl, rfl⟩ := List.mem_map.mp hname
    obtain ⟨n, hn⟩ := holds_table h nodup l hl
    exact NameMap.mem_names_of_get? hn
  have shorter := (nodup.subperm found).length_le
  rwa [NameMap.names, List.length_map, List.length_map] at shorter

end Document

end XdrText
