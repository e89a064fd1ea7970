import XdrText.Proofs.Attribution
import XdrText.Proofs.Query
import XdrText.Proofs.Scribble

/-!
# XdrText — which rows ask for help

A row is read if something depends on its text.  For a step of reading and a row of its table there
are two cases (`Reading.Hears`).  Either the step comes to the same whatever the text of the row is:
then it does not ask for help with its name (`Reading.Deaf`).  Or it takes the row away, whatever
its text is, and the text decides: some texts are a fault and some are none, and the step asks for
help with the name if and only if the text ends in a `?`  or cannot be read (`Reading.Heard`).  So
it is for a judgement, since no rule accepts every text, and it passes from step to step, since no
row is judged twice.

**Requests** (`Schema.readWithin_asked`).  The names for which help is wanted after reading are
those for which it was wanted before and those of the rows that are read and end in a `?`  or cannot
be read.
-/

namespace XdrText
open Text

namespace Row

/-- Blanks at the end of a row are not looked at. -/
theorem entry_asks (row : Row) :
    row.entry.2 = true ↔ (trimRight row.text.toList).getLast? = some '?' := by
  rw [trimRight, List.getLast?_reverse, entry]
  cases h : row.text.toList.reverse.dropWhile isBlank with
  | nil => simp
  | cons c cs =>
      by_cases mark : c = '?'
      · subst mark
        simp only [List.head?_cons, iff_true]
        split <;> rfl
      · simp [mark]

end Row

namespace Reading
variable {α β : Type} {x : Reading α} {t : Table} {name : String} {line : Nat}

/-- The step finds a fault in the text of the line. -/
def Complains (x : Reading α) (t : Table) (line : Nat) : Prop :=
  ∃ f ∈ (x t).faults, f.line = line ∧ f.cause.OfText

/-- The text of the line cannot be read. -/
def Rejects (x : Reading α) (t : Table) (line : Nat) : Prop :=
  ∃ f ∈ (x t).faults, f.line = line ∧ ∃ p, f.cause = .malformed p

/-- The step does not read the row of a name, which is on the line: nothing that it comes to depends
on the row. -/
structure Deaf (x : Reading α) (t : Table) (name : String) (line : Nat) : Prop where
  blind : x.Blind t line
  silent : ¬ x.Complains t line
  unasked : name ∉ (x t).asked

/-- The step reads the row of a name, which is on the line: whatever its text is, the row is gone,
and the text decides whether it asks for help. -/
structure Heard (x : Reading α) (t : Table) (name : String) (line : Nat) : Prop where
  gone : ∀ text, (x (t.revised line text)).rest.get? name = none
  asks : ∀ text, name ∈ (x (t.revised line text)).asked ↔
    (Row.entry ⟨line, text⟩).2 = true ∨ x.Rejects (t.revised line text) line
  quiet : ∃ text, Document.OneLine text ∧ ¬ x.Complains (t.revised line text) line
  loud : ∃ text, Document.OneLine text ∧ x.Complains (t.revised line text) line

/-- Each row is read or makes no difference, and only names that have a row are asked for. -/
structure Hears (x : Reading α) : Prop where
  cites : x.Cites Cause.OfText
  asked : ∀ t, ∀ n ∈ (x t).asked, (t.get? n).isSome
  row : ∀ t : Table, t.Distinct → ∀ name row, t.get? name = some row →
    x.Deaf t name row.line ∨ x.Heard t name row.line

/-- A text that cannot be read is a fault of its line. -/
theorem Rejects.complains (h : x.Rejects t line) : x.Complains t line := by
  obtain ⟨f, hf, same, p, malformed⟩ := h
  exact ⟨f, hf, same, by rw [malformed]; trivial⟩

section
variable {f : α → Reading β}

theorem complains_bind : (x >>= f).Complains t line ↔
    x.Complains t line ∨ (f (x t).value).Complains (x t).rest line := by
  simp only [Complains, bind, Reading.bind, List.mem_append, or_and_right, exists_or]

theorem rejects_bind : (x >>= f).Rejects t line ↔
    x.Rejects t line ∨ (f (x t).value).Rejects (x t).rest line := by
  simp only [Rejects, bind, Reading.bind, List.mem_append, or_and_right, exists_or]

/-- Two steps ask for what the first asks for and what the second asks for. -/
theorem mem_asked_bind : name ∈ ((x >>= f) t).asked ↔
    name ∈ (x t).asked ∨ name ∈ (f (x t).value (x t).rest).asked :=
  List.mem_append

/-- A step that reports nothing and is blind to a line does not read the row there. -/
theorem Deaf.of_silent (silent : (x t).faults = [] ∧ (x t).asked = []) (blind : x.Blind t line) :
    x.Deaf t name line := by
  refine ⟨blind, ?_, by simp [silent.2]⟩
  rintro ⟨f, hf, -⟩
  rw [silent.1] at hf
  cases hf

/-- A row that neither of two steps reads is not read. -/
theorem Deaf.bind (hx : x.Deaf t name line) (hf : (f (x t).value).Deaf (x t).rest name line) :
    (x >>= f).Deaf t name line where
  blind text := by simp only [Bind.bind, Reading.bind, hx.blind text, hf.blind text]
  silent := by
    rw [complains_bind]
    exact not_or.mpr ⟨hx.silent, hf.silent⟩
  unasked := by
    rw [mem_asked_bind]
    exact not_or.mpr ⟨hx.unasked, hf.unasked⟩

/-- A row that the first step does not read is there for the second one. -/
theorem Deaf.bind_heard (hx : x.Deaf t name line)
    (hf : (f (x t).value).Heard (x t).rest name line) :
    (x >>= f).Heard t name line := by
  have silent : ∀ text, ¬ x.Complains (t.revised line text) line := fun text => by
    simpa only [Complains, hx.blind text] using hx.silent
  have complains : ∀ text, (x >>= f).Complains (t.revised line text) line ↔
      (f (x t).value).Complains ((x t).rest.revised line text) line := fun text => by
    simp only [complains_bind, silent text, false_or, hx.blind text]
  constructor
  · intro text
    simpa only [Bind.bind, Reading.bind, hx.blind text] using hf.gone text
  · intro text
    have accepts : ¬ x.Rejects (t.revised line text) line := fun h => silent text h.complains
    simpa only [mem_asked_bind, rejects_bind, accepts, false_or, hx.blind text, hx.unasked] using
      hf.asks text
  · simpa only [complains] using hf.quiet
  · simpa only [complains] using hf.loud

/-- A row that the first step reads is not there for the second one, whatever its text was. -/
theorem Heard.bind (hx : x.Heard t name line)
    (hf : ∀ text, (f (x (t.revised line text)).value).Deaf (x (t.revised line text)).rest name line)
    (shrinks : ∀ text, (f (x (t.revised line text)).value).Shrinks) :
    (x >>= f).Heard t name line := by
  have complains : ∀ text, (x >>= f).Complains (t.revised line text) line ↔
      x.Complains (t.revised line text) line := fun text => by
    simp only [complains_bind, (hf text).silent, or_false]
  constructor
  · exact fun text => (shrinks text).get?_eq_none (hx.gone text)
  · intro text
    have accepts : ¬ (f (x (t.revised line text)).value).Rejects
        (x (t.revised line text)).rest line :=
      fun h => (hf text).silent h.complains
    simpa only [mem_asked_bind, rejects_bind, accepts, (hf text).unasked,
      or_false] using hx.asks text
  · simpa only [complains] using hx.quiet
  · simpa only [complains] using hx.loud

end

/-! A judgement -/

section
variable {rule : Rule α} {old : α} {row : Row}

/-- A judgement complains of its row where the verdict is a fault of the text. -/
theorem complains_judge? (h : t.get? name = some row) :
    (Reading.judge? name rule old).Complains t row.line ↔
      ∃ c, (verdict name rule old row).2.1 = some c ∧ c.OfText := by
  simp [Complains, judge?_of_some h]

/-- A judgement rejects its row where the text is malformed. -/
theorem rejects_judge? (h : t.get? name = some row) :
    (Reading.judge? name rule old).Rejects t row.line ↔
      ∃ p, (verdict name rule old row).2.1 = some (.malformed p) := by
  simp [Rejects, judge?_of_some h]

/-- The row of a name is read where it is judged. -/
theorem Heard.judge? (touchy : rule.Touchy old) (h : t.get? name = some row) :
    (Reading.judge? name rule old).Heard t name row.line := by
  have revised := Table.get?_revised_self h
  constructor
  · intro text
    rw [judge?_of_some (revised text), NameMap.get?_erase, if_pos rfl]
  · intro text
    rw [rejects_judge? (revised text), judge?_of_some (revised text), mem_asked_verdict]
    exact and_iff_right rfl
  · refine ⟨"?", Document.oneLine_question, fun complains => ?_⟩
    obtain ⟨c, hc, -⟩ := (complains_judge? (revised "?")).mp complains
    simp [verdict, Row.entry_question] at hc
  · obtain ⟨k, c, hc, ofText⟩ := touchy
    refine ⟨_, oneLine_scribble, (complains_judge? (revised (String.ofList (scribble k)))).mpr ?_⟩
    exact ⟨c, by simpa only [verdict, entry_scribble] using hc, ofText⟩

/-- No other row is read there. -/
theorem Deaf.judge? (ht : t.Distinct) {n : String} (hn : t.get? n = some row) (ne : n ≠ name) :
    (Reading.judge? name rule old).Deaf t n row.line := by
  cases h : t.get? name with
  | none =>
      have revised : ∀ text, (t.revised row.line text).get? name = none := fun text => by
        rw [Table.get?_revised, h, Option.map_none]
      constructor
      · intro text
        rw [judge?_of_none h, judge?_of_none (revised text)]
      · simp [Complains, judge?_of_none h]
      · simp [judge?_of_none h]
  | some other =>
      have apart : other.line ≠ row.line := fun same => ne (ht n name row other hn h same.symm)
      have revised : ∀ text, (t.revised row.line text).get? name = some other := fun text => by
        rw [Table.get?_revised, h, Option.map_some, Row.revised_of_ne apart]
      constructor
      · intro text
        rw [judge?_of_some h, judge?_of_some (revised text), Table.erase_revised]
      · simp [Complains, judge?_of_some h, apart]
      · rw [judge?_of_some h, mem_asked_verdict]
        exact fun asked => ne asked.1

end

/-! A step reads a row or does not -/

namespace Hears

/-- A step that reads no row makes no difference to any of them. -/
theorem of_deaf (cites : x.Cites Cause.OfText) (unasked : ∀ t, (x t).asked = [])
    (deaf : ∀ t name line, x.Deaf t name line) : x.Hears where
  cites := cites
  asked t n hn := by
    rw [unasked t] at hn
    cases hn
  row t _ name row _ := .inl (deaf t name row.line)

/-- A step that says nothing and reads no text reads no row. -/
theorem of_silent (cites : x.Cites Cause.OfText)
    (silent : ∀ t, (x t).faults = [] ∧ (x t).asked = [])
    (blind : ∀ t line, x.Blind t line) : x.Hears :=
  of_deaf cites (fun t => (silent t).2) fun t _ line => .of_silent (silent t) (blind t line)

/-- A row that is not there is not read. -/
theorem deaf (h : x.Hears) (ht : t.Distinct) {row : Row} (hrow : t.get? name = some row) {u : Table}
    (shrinks : ∀ n other, u.get? n = some other → t.get? n = some other)
    (gone : u.get? name = none) :
    x.Deaf u name row.line where
  blind text := by
    have absent : ¬ u.OnLine row.line := ht.not_onLine hrow shrinks gone
    have left : ¬ (x u).rest.OnLine row.line :=
      ht.not_onLine hrow (fun n other hn => shrinks n other (h.cites.shrinks u n other hn))
        (h.cites.shrinks.get?_eq_none gone)
    rw [Table.revised_of_not_onLine absent, Table.revised_of_not_onLine left]
  silent := by
    rintro ⟨g, hg, same, ofText⟩
    obtain ⟨n, other, hother, line, -⟩ := h.cites.taken u g hg ofText
    exact ht.not_onLine hrow shrinks gone ⟨n, other, hother, line.trans same⟩
  unasked := by
    intro asked
    have there := h.asked u name asked
    rw [gone] at there
    cases there

/-- Each row is read by the first step, or by the second one, or by neither. -/
theorem bind {f : α → Reading β} (hx : x.Hears) (hf : ∀ t, (f (x t).value).Hears) :
    (x >>= f).Hears where
  cites := hx.cites.bind fun t => (hf t).cites
  asked t n hn := by
    rcases mem_asked_bind.mp hn with hn | hn
    · exact hx.asked t n hn
    · obtain ⟨row, hrow⟩ := Option.isSome_iff_exists.mp ((hf t).asked _ n hn)
      rw [hx.cites.shrinks t n row hrow]
      rfl
  row t ht name row hrow := by
    rcases hx.row t ht name row hrow with unread | heard
    · cases left : (x t).rest.get? name with
      | some other =>
          obtain rfl : other = row :=
            Option.some.inj ((hx.cites.shrinks t name other left).symm.trans hrow)
          exact ((hf t).row _ (hx.cites.shrinks.distinct ht) name other left).imp
            unread.bind unread.bind_heard
      | none => exact .inl (unread.bind ((hf t).deaf ht hrow (hx.cites.shrinks t) left))
    · refine .inr (heard.bind (fun text => ?_) fun text => (hf _).cites.shrinks)
      exact (hf _).deaf (ht.revised _ _) (Table.get?_revised_self hrow text) (hx.cites.shrinks _)
        (heard.gone text)

/-- The row of the name that is judged is read, and no other. -/
theorem judge? (name : String) {rule : Rule α} {old : α} (touchy : rule.Touchy old) :
    (Reading.judge? name rule old).Hears where
  cites := .judge? name rule old
  asked t n hn := by
    cases h : t.get? name with
    | none => simp [judge?_of_none h] at hn
    | some row =>
        rw [judge?_of_some h, mem_asked_verdict] at hn
        rw [hn.1, h]
        rfl
  row t ht n row hrow := by
    by_cases same : n = name
    · subst same
      exact .inr (.judge? touchy hrow)
    · exact .inl (.judge? ht hrow same)

/-! Other steps -/

theorem pure (a : α) : (Pure.pure a : Reading α).Hears :=
  of_silent (.of_silent fun _ => ⟨rfl, rfl⟩) (fun _ => ⟨rfl, rfl⟩) fun _ _ _ => rfl

theorem giveUp (a : α) : (Reading.giveUp a).Hears :=
  of_silent (.of_silent fun _ => ⟨rfl, rfl⟩) (fun _ => ⟨rfl, rfl⟩) fun _ _ _ => rfl

/-- Whether a name is mentioned depends on the names alone, and no text is read for it. -/
theorem mentions (name : String) : (Reading.look fun t => Table.mentions t name).Hears :=
  of_silent (.of_silent fun _ => ⟨rfl, rfl⟩) (fun _ => ⟨rfl, rfl⟩) (mentions_blind name)

/-- The line of a name is found without its text. -/
theorem lineOf (name : String) : (Reading.lineOf name).Hears :=
  of_silent (.of_silent fun _ => ⟨rfl, rfl⟩) (fun _ => ⟨rfl, rfl⟩) (lineOf_blind name)

theorem discard (name : String) : (Reading.discard name).Hears :=
  of_silent (.discard name) (fun _ => ⟨rfl, rfl⟩) (discard_blind name)

/-- A value that cannot be made is reported without a text being read. -/
theorem unmade (line : Nat) (f : SchemaFault) :
    (Reading.report line (.misplaced (.noInitial f))).Hears := by
  refine of_deaf (.report id) (fun _ => rfl) fun t name other =>
    ⟨fun _ => rfl, ?_, List.not_mem_nil⟩
  rintro ⟨g, hg, -, ofText⟩
  cases List.mem_singleton.mp hg
  exact ofText

theorem map {x : Reading α} (hx : x.Hears) (f : α → β) : (f <$> x).Hears := by
  rw [map_eq_pure_bind]
  exact hx.bind fun _ => pure _

theorem judge (name : String) {rule : Rule α} {old : α} (touchy : rule.Touchy old) :
    (Reading.judge name rule old).Hears :=
  (judge? name touchy).map _

end Hears
end Reading

namespace Reader
variable {r : Reader}

theorem plainLeaf_hears (name : String) (l : Leaf) : (r.plainLeaf name l).Hears := by
  rw [plainLeaf_eq_judge]
  cases hp : r.leafParser? l with
  | none => exact .pure l
  | some parse => exact .judge name (leafRule_touchy hp)

/-- Where there is a row of the short name, that of the long name is taken away and not read. -/
theorem leaf_shadows {t : Table} (ht : t.Distinct) {name short : String} {l : Leaf} {data : Bytes}
    (h : l.bareSource? name = some (short, data)) {shown row : Row}
    (found : t.get? short = some shown) (hidden : t.get? name = some row) :
    (r.leaf name l).Deaf t name row.line ∧ (r.leaf name l t).rest.get? name = none := by
  have ne : name ≠ short := fun same => by
    have shorter := Name.length_lt_of_sourceAlias? (Leaf.bareSource?_eq_some h).2
    rw [same] at shorter
    exact Nat.lt_irrefl _ shorter
  have judged : (Reading.judge? short sourceRule l t).value =
      some (Reading.verdict short sourceRule l shown).1 := by
    rw [Reading.judge?_of_some found]
  simp only [leaf, h, bareSource_eq_judge]
  constructor
  · refine .bind (.judge? ht hidden ne) ?_
    rw [judged]
    exact .bind (.of_silent ⟨rfl, rfl⟩ (Reading.discard_blind name _ _))
      (.of_silent ⟨rfl, rfl⟩ fun _ => rfl)
  · simp only [bind, Reading.bind, judged, Reading.discard]
    exact (NameMap.get?_erase _ name name).trans (if_pos rfl)

/-- A leaf reads the row of its name and that of its short name. -/
theorem leaf_hears (name : String) (l : Leaf) : (r.leaf name l).Hears := by
  rw [leaf]
  cases l.bareSource? name with
  | none => exact plainLeaf_hears name l
  | some p =>
      simp only [bareSource_eq_judge]
      refine .bind (.judge? p.1 (sourceRule_touchy l)) fun t => ?_
      cases (Reading.judge? p.1 sourceRule l t).value with
      | none => exact plainLeaf_hears name l
      | some l' => exact .bind (.discard name) fun _ => .pure l'

theorem signature_hears (name : String) (g : Key.Signature) : (signature name g).Hears := by
  rw [signature_eq_judge]
  refine .bind (.judge _ (hintRule_touchy g.hint)) fun _ => ?_
  exact .bind (.judge _ (bodyRule_touchy g.body)) fun _ => .pure _

theorem presence_hears (name : String) (depth : Nat) : (presence name depth).Hears := by
  rw [presence_eq_judge]
  refine .bind (.judge _ (presenceRule_touchy none)) fun t => ?_
  cases (Reading.judge (Name.presence name depth) (presenceRule (Name.presence name depth)) none
    t).value with
  | none => exact .mentions name
  | some present => exact .pure present

theorem settle_hears (u : ResolvedUnion) (name : String) (old : Int32) :
    (r.settle u name old).Hears := by
  rw [settle]
  cases hp : r.tagParser? u.tagType with
  | none => exact .pure old
  | some parse => exact .judge name (tagRule_touchy hp old)

/-- The walk reads rows or leaves them alone, one by one. -/
theorem hears : r.Stepwise (fun _ => True) fun x => x.Hears where
  pure := .pure
  bind := .bind
  leaf := leaf_hears
  signature := signature_hears
  presence := presence_hears
  count name max old := .judge? name (countRule_touchy max old)
  settle := settle_hears
  lineOf := .lineOf
  giveUp := .giveUp
  unmade line f _ _ _ := .unmade line f

end Reader

namespace HelpRequests

/-- The requests that are there stay, and the new ones join them. -/
theorem contains_insertAll (help : HelpRequests) (names : List String) (name : String) :
    (help.insertAll names).asked.contains name = true ↔
      help.asked.contains name = true ∨ name ∈ names := by
  induction names generalizing help with
  | nil => simp [insertAll]
  | cons n names ih =>
      have inserted : (help.insert n).asked.contains name = true ↔
          help.asked.contains name = true ∨ n = name := by
        rw [NameMap.contains, insert, NameMap.get?_insert, NameMap.contains]
        by_cases same : n = name <;> simp [same]
      refine (ih (help.insert n)).trans ?_
      rw [inserted, List.mem_cons, eq_comm (a := name), or_assoc]

end HelpRequests

namespace Schema
variable {s : Schema}

/-- Reading depends on the value of a line: with another one the tree, the faults or the end of the
walk would be different.  For which names help is asked does not count. -/
def Heeds (s : Schema) (limit : Nat) (native name doc : String) (v : Value) (line : Nat) : Prop :=
  ∃ value, Document.OneLine value ∧
    let read := s.readWithin limit native name doc v
    let again := s.readWithin limit native name (Document.revise line value doc) v
    ¬ (again.value = read.value ∧ again.faults = read.faults ∧ again.complete = read.complete)

section
variable {limit line : Nat} {native name doc n : String} {v : Value}

/-- A row that the walk does not read is not heeded: no value of its line makes a difference. -/
theorem not_heeds_of_deaf
    (deaf : (Reader.node ⟨s, native⟩ limit 0 name v).Deaf (Document.table doc) n line) :
    ¬ s.Heeds limit native name doc v line := by
  rintro ⟨value, one, differs⟩
  refine differs ?_
  simp only [readWithin, Document.table_revise line doc one,
    Document.strayLines_revise line doc one, deaf.blind value, and_self]

/-- Some value is a fault and some value is none, so one of the two makes a difference. -/
theorem heeds_of_heard
    (heard : (Reader.node ⟨s, native⟩ limit 0 name v).Heard (Document.table doc) n line) :
    s.Heeds limit native name doc v line := by
  have found : ∀ value, Document.OneLine value →
      (s.readWithin limit native name (Document.revise line value doc) v).faults =
        (s.readWithin limit native name doc v).faults →
      ((Reader.node ⟨s, native⟩ limit 0 name v).Complains
          ((Document.table doc).revised line value) line ↔
        (Reader.node ⟨s, native⟩ limit 0 name v).Complains (Document.table doc) line) := by
    intro value one same
    simp only [readWithin, Document.table_revise line doc one,
      Document.strayLines_revise line doc one] at same
    rw [Reading.Complains, List.append_cancel_left same, Reading.Complains]
  by_cases complains : (Reader.node ⟨s, native⟩ limit 0 name v).Complains (Document.table doc) line
  · obtain ⟨value, one, quiet⟩ := heard.quiet
    exact ⟨value, one, fun same => quiet ((found value one same.2.1).mpr complains)⟩
  · obtain ⟨value, one, loud⟩ := heard.loud
    exact ⟨value, one, fun same => complains ((found value one same.2.1).mp loud)⟩

/-- A line without a colon is no value that cannot be read. -/
theorem rejects_readWithin :
    (∃ f ∈ (s.readWithin limit native name doc v).faults, f.line = line ∧
      ∃ p, f.cause = .malformed p) ↔
      (Reader.node ⟨s, native⟩ limit 0 name v).Rejects (Document.table doc) line := by
  constructor
  · rintro ⟨f, hf, same, p, malformed⟩
    rcases List.mem_append.mp hf with stray | hf
    · obtain ⟨_, -, rfl⟩ := List.mem_map.mp stray
      cases malformed
    · exact ⟨f, hf, same, p, malformed⟩
  · rintro ⟨f, hf, found⟩
    exact ⟨f, List.mem_append_right _ hf, found⟩

end

/-- After reading help is wanted for the names for which it was wanted before, and for those of the
rows that are read and whose value ends in a `?`  before the blanks at its end or cannot be read. -/
theorem readWithin_asked {d : Definitions} (resolved : d.resolve = .ok s) {ty : Ty} {v : Value}
    (h : s.HasType ty v) (limit : Nat) (help : HelpRequests) (name doc n : String) :
    (help.insertAll (s.readWithin limit help.native name doc v).asked).asked.contains n = true ↔
      help.asked.contains n = true ∨
        ∃ row, (Document.table doc).get? n = some row ∧
          s.Heeds limit help.native name doc v row.line ∧
          ((trimRight row.text.toList).getLast? = some '?' ∨
            ∃ f ∈ (s.readWithin limit help.native name doc v).faults, f.line = row.line ∧
              ∃ p, f.cause = .malformed p) := by
  have hears : (Reader.node ⟨s, help.native⟩ limit 0 name v).Hears :=
    Reader.hears.node (Definitions.resolve_sound resolved) closed_all limit trivial h.shaped
  have distinct := Document.table_distinct doc
  rw [HelpRequests.contains_insertAll]
  refine or_congr_right ?_
  simp only [rejects_readWithin, ← Row.entry_asks]
  cases hrow : (Document.table doc).get? n with
  | none =>
      refine ⟨fun asked => ?_, fun ⟨_, found, _⟩ => nomatch found⟩
      have there := hears.asked _ n asked
      rw [hrow] at there
      cases there
  | some row =>
      simp only [Option.some.injEq, exists_eq_left']
      rcases hears.row _ distinct n row hrow with deaf | heard
      · exact iff_of_false deaf.unasked fun reads => not_heeds_of_deaf deaf reads.1
      · have asks := heard.asks row.text
        rw [distinct.revised_self hrow] at asks
        exact asks.trans (and_iff_right (heeds_of_heard heard)).symm

/-- A fee that cannot be read, and a source account of which only the short name is read. -/
def requests : String :=
  "tx.fee: 1x\ntx.sourceAccountEd25519: 00?\ntx.sourceAccount: ?\nnote: ?"

/-- The fee is read and asks for help; the long name of the source account ends in a `?`  and is not
read, and the note belongs to nothing. -/
theorem readWithin_asked_envelope :
    let help := HelpRequests.empty.insert "memo"
    let read := Envelope.schema.readWithin 4 help.native "" requests Envelope.initial
    Envelope.definitions.resolve = .ok Envelope.schema ∧
      Envelope.schema.HasType Envelope.ty Envelope.initial ∧
      (help.insertAll read.asked).asked.names = ["memo", "tx.fee", "tx.sourceAccount"] ∧
      Envelope.schema.Heeds 4 help.native "" requests Envelope.initial 1 ∧
      ¬ Envelope.schema.Heeds 4 help.native "" requests Envelope.initial 2 := by
  intro help read
  have requested :=
    readWithin_asked Envelope.resolve_definitions Envelope.initial_hasType 4 help "" requests
  refine ⟨Envelope.resolve_definitions, Envelope.initial_hasType, by decide +kernel,
    ?_, fun heeds => ?_⟩
  · have asked : (help.insertAll read.asked).asked.contains "tx.fee" = true := by decide +kernel
    have before : ¬ help.asked.contains "tx.fee" = true := by decide +kernel
    obtain ⟨row, hrow, heeds, -⟩ := ((requested "tx.fee").mp asked).resolve_left before
    have first : (Document.table requests).get? "tx.fee" = some ⟨1, " 1x"⟩ := by decide +kernel
    obtain rfl := Option.some.inj (first.symm.trans hrow)
    exact heeds
  · have unasked :
        ¬ (help.insertAll read.asked).asked.contains "tx.sourceAccountEd25519" = true := by
      decide +kernel
    have second : (Document.table requests).get? "tx.sourceAccountEd25519" = some ⟨2, " 00?"⟩ := by
      decide +kernel
    exact unasked ((requested "tx.sourceAccountEd25519").mpr
      (.inr ⟨⟨2, " 00?"⟩, second, heeds, .inl (by decide)⟩))

end Schema
end XdrText
