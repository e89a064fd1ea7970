import XdrText.Proofs.Revision

/-!
# XdrText — a question in place of a value

A line can ask for help with its name and say nothing else (`Document.query`): its value is revised
to a question (`Document.query_eq`).  So the table of the document is the same except for the text
of that row (`Document.table_query`).
-/

namespace XdrText
open Text

/-! ### Rows and tables -/

/-- The row, with its text a question if it stands on that line. -/
def Row.queried (line : Nat) (r : Row) : Row :=
  if r.line = line then { r with text := "?" } else r

namespace Row
variable {line : Nat}

theorem queried_of_ne {r : Row} (h : r.line ≠ line) : r.queried line = r :=
  revised_of_ne h

/-- A question asks for help and says nothing else. -/
theorem entry_question (line : Nat) : Row.entry ⟨line, "?"⟩ = (.help, true) := by
  have blank : isBlank '?' = false := by decide
  simp [Row.entry, blank]

/-- The entry on that line becomes a request for help. -/
theorem entry_queried {r : Row} (h : r.line = line) : (r.queried line).entry = (.help, true) := by
  rw [queried, if_pos h]
  exact entry_question r.line

end Row

namespace Table

/-- The table with a question in the row of a line. -/
def queried (line : Nat) (t : Table) : Table :=
  t.map (Row.queried line)

variable {line : Nat} {t : Table}

theorem queried_eq : t.queried line = t.revised line "?" :=
  rfl

/-- A name is found as before, with a question for a text if its row stands on the line. -/
theorem get?_queried (name : String) :
    (t.queried line).get? name = (t.get? name).map (Row.queried line) :=
  get?_revised name

theorem erase_queried (name : String) :
    NameMap.erase (t.queried line) name = Table.queried line (t.erase name) :=
  erase_revised name

/-- Without a row on that line there is nothing to change. -/
theorem queried_of_not_onLine (h : ¬ t.OnLine line) : t.queried line = t :=
  revised_of_not_onLine h

end Table

/-! ### Documents -/

namespace Document

/-- The line with a question in place of its value; a line without a colon has no value. -/
def queryLine (l : List Char) : List Char :=
  if ':' ∈ l then l.takeWhile (· ≠ ':') ++ [':', '?'] else l

/-- The document with a question in place of the value of a line. -/
def query (line : Nat) (doc : String) : String :=
  String.ofList (['\n'].intercalate ((doc.toList.splitOn '\n').mapIdx fun i l =>
    if i + 1 = line then queryLine l else l))

/-- A question is a value like any other. -/
theorem query_eq (line : Nat) (doc : String) : query line doc = revise line "?" doc :=
  rfl

/-- A question has no line feed, so a line takes it as its value. -/
theorem oneLine_question : OneLine "?" := by
  exact ⟨by decide, by decide⟩

theorem strayLines_query (line : Nat) (doc : String) :
    strayLines (query line doc) = strayLines doc := by
  rw [query_eq, strayLines_revise line doc oneLine_question]

/-- The table of a document with a question in it is the table with that row questioned. -/
theorem table_query (line : Nat) (doc : String) :
    table (query line doc) = (table doc).queried line := by
  rw [query_eq, table_revise line doc oneLine_question, Table.queried_eq]

end Document
end XdrText
