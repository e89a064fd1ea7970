import XdrText.Proofs.Attribution
import XdrText.Proofs.Mirror
import XdrText.Proofs.Region

/-!
# XdrText — steps that infer what is not written

A line that says whether an optional is there is redundant, and so is one that says that a sequence
is empty (`Line.Redundant`).  A step infers a value from lines when it comes to it, without a fault
or a request for help, from any table of a document's rows that retains all of the lines but
redundant ones (`Reading.Infers`).

A presence without a row is inferred from whether the node is mentioned (`Writer.presence_infers`);
a length without a row is that of an empty sequence (`Writer.length_infers`).
-/

namespace XdrText

/-! ### Tables without redundant rows -/

/-- A line that says whether an optional is there, or that a sequence is empty. -/
def Line.Redundant (l : Line) : Prop :=
  (∃ n d, l.name = Name.presence n d) ∨ (∃ n, l.name = Name.length n) ∧ l.text = "0"

theorem Line.Redundant.structural {l : Line} (h : l.Redundant) : Name.Structural l.name :=
  h.imp id And.left

namespace Table
variable {t : Table} {doc : List String} {lines more : List Line}

/-- A table has the rows of all lines but redundant ones. -/
def Retains (t : Table) (lines : List Line) : Prop :=
  ∀ l ∈ lines, (∃ n, t.get? l.name = some ⟨n, l.value⟩) ∨ l.Redundant ∧ t.get? l.name = none

/-- All rows of a table have names of a document. -/
def Within (t : Table) (doc : List String) : Prop :=
  ∀ n, (t.get? n).isSome → n ∈ doc

/-- A table that retains lines of which none is structural has the rows of all. -/
theorem Retains.holds (h : t.Retains lines)
    (essential : ∀ n ∈ lines.map Line.name, ¬ Name.Structural n) : t.Holds lines := by
  intro l hl
  rcases h l hl with row | ⟨redundant, -⟩
  · exact row
  · exact absurd redundant.structural (essential _ (List.mem_map_of_mem hl))

/-- A table that has the same rows under their names retains the lines. -/
theorem Retains.of_get? {t' : Table} (h : t.Retains lines)
    (same : ∀ l ∈ lines, t'.get? l.name = t.get? l.name) : t'.Retains lines := by
  intro l hl
  rw [same l hl]
  exact h l hl

theorem Retains.erase (h : t.Retains lines) {name : String} (apart : name ∉ lines.map Line.name) :
    Table.Retains (t.erase name) lines := by
  refine h.of_get? fun l hl => ?_
  have ne : l.name ≠ name := by
    rintro rfl
    exact apart (List.mem_map_of_mem hl)
  rw [NameMap.get?_erase, if_neg ne]

theorem Within.erase (h : t.Within doc) (name : String) : Table.Within (t.erase name) doc := by
  intro n hn
  rw [NameMap.get?_erase] at hn
  split at hn
  · cases hn
  · exact h n hn

/-- A step that only takes rows away leaves no name that is not one of the document. -/
theorem Within.rest {α : Type} {x : Reading α} (shrinks : x.Shrinks) (h : t.Within doc) :
    (x t).rest.Within doc := by
  intro n hn
  obtain ⟨row, hrow⟩ := Option.isSome_iff_exists.mp hn
  exact h n (by rw [shrinks t n row hrow]; rfl)

end Table

/-! ### Inferring steps -/

namespace Reading
variable {α β γ : Type}

/-- From any table of rows of the document that retains the lines, the step comes to the value that
they were written for, and leaves the rows of other lines. -/
def Infers (doc : List String) (x : Reading α) (name : String) (lines : List Line) (v : α) : Prop :=
  ∀ t : Table, t.Within doc → t.Retains lines → Reflects name lines True v t (x t)

namespace Infers
variable {doc : List String} {x : Reading α} {y : Reading β} {name m m' : String}
  {lines more : List Line} {a : α} {b : β}

/-- A step that mirrors lines of which none is structural infers their value. -/
theorem of_mirrors {P : Prop} (h : x.Mirrors name lines P a) (hP : P)
    (essential : ∀ n ∈ lines.map Line.name, ¬ Name.Structural n) : x.Infers doc name lines a :=
  fun t _ retains => (h t (retains.holds essential)).congr (iff_true_intro hP)

protected theorem pure : (Pure.pure a : Reading α).Infers doc name [] a :=
  fun _ _ _ => ⟨fun _ => ⟨rfl, rfl, rfl⟩, fun _ _ => trivial, rfl, fun _ _ _ => rfl⟩

protected theorem map (f : α → β) (h : x.Infers doc name lines a) :
    (f <$> x).Infers doc name lines (f a) :=
  fun t within retains => (h t within retains).map f fun _ _ => trivial

/-- What is inferred below one name is inferred below a name further up. -/
theorem below (h : x.Infers doc m lines a) (hb : ∀ n, Name.Below m n → Name.Below name n) :
    x.Infers doc name lines a :=
  fun t within retains => (h t within retains).below hb

/-- A step that takes the row of a line, if it is there, and what follows it. -/
theorem step {l : Line} {c : Nat → α} {f : α → Reading β}
    (hx : ∀ t : Table, t.Within doc → t.Retains (l :: lines) →
      ∃ n, x t = ⟨c n, t.erase l.name, [], [], false⟩)
    (hf : ∀ n, (f (c n)).Infers doc name lines b) (apart : l.name ∉ lines.map Line.name) :
    (x >>= f).Infers doc name (l :: lines) b := by
  intro t within retains
  obtain ⟨n, hn⟩ := hx t within retains
  have rest : t.Retains lines := fun k hk => retains k (List.mem_cons_of_mem _ hk)
  exact .step hn (hf n _ (within.erase l.name) (rest.erase apart))

/-- The line on which a row stands makes no difference. -/
theorem lineOf {k : String} {f : Nat → Reading α} (h : ∀ n, (f n).Infers doc name lines a) :
    (Reading.lineOf k >>= f).Infers doc name lines a :=
  fun t within retains => .lineOf fun n => h n t within retains

/-- Two steps whose values are put together: the lines of the second are neither among those of the
first nor under a name that the first may drop. -/
theorem pair (f : α → β → γ) (hx : x.Infers doc m lines a) (shrinks : x.Shrinks)
    (hy : y.Infers doc m' more b) (hm : ∀ n, Name.Below m n → Name.Below name n)
    (hm' : ∀ n, Name.Below m' n → Name.Below name n)
    (apart : ∀ l ∈ more, l.name ∉ lines.map Line.name)
    (kept : ∀ l ∈ more, (Name.sourceAlias? l.name).isSome → ¬ Name.Below m l.name) :
    Infers doc (do let c ← x; let d ← y; return f c d) name (lines ++ more) (f a b) := by
  intro t within retains
  have first := hx t within fun l hl => retains l (List.mem_append_left _ hl)
  -- the first step leaves the rows of the second
  have own : t.Retains more := fun l hl => retains l (List.mem_append_right _ hl)
  have left : (x t).rest.Retains more := own.of_get? fun l hl =>
      first.leaves (apart l hl) (kept l hl)
  have second := hy _ (within.rest shrinks) left
  exact (first.pair f second hm hm' fun _ _ _ => ⟨trivial, trivial⟩).congr (and_self_iff)

end Infers

end Reading

namespace Writer
open Reader

section
variable {doc : List String} {name : String} {t : Table} {lines : List Line}

/-- A row that goes on from a name, and that no inference takes away, mentions it. -/
theorem mentions_of_retains (retains : t.Retains lines) {n : String} (hn : n ∈ lines.map Line.name)
    (proper : ¬ Name.Structural n) (extends' : Name.Extends name n) : t.mentions name = true := by
  obtain ⟨l, hl, rfl⟩ := List.mem_map.mp hn
  rcases retains l hl with ⟨line, row⟩ | ⟨redundant, -⟩
  · exact Table.mentions_iff.mpr ⟨l.name, NameMap.mem_names_of_get? row, extends'⟩
  · exact absurd redundant.structural proper

/-- A node is not mentioned where none of its lines has its row. -/
theorem not_mentions_of_owns (within : t.Within doc) (owns : Owns doc (Name.Below name) lines)
    (none : ∀ l ∈ lines, t.get? l.name = none) : t.mentions name = false := by
  refine Bool.eq_false_iff.mpr fun mentions => ?_
  obtain ⟨n, hn, extends'⟩ := Table.mentions_iff.mp mentions
  have row : (t.get? n).isSome := NameMap.contains_iff.mpr hn
  obtain ⟨l, hl, rfl⟩ := List.mem_map.mp (owns n (within n row) extends'.below)
  rw [none l hl] at row
  cases row

/-- An optional says whether it is there, or else shows it by whether it is mentioned. -/
theorem presence_infers {depth : Nat} (present : Bool)
    (missing : ∀ t : Table, t.Within doc →
      t.Retains (⟨Name.presence name depth, if present then "true" else "false"⟩ :: lines) →
      t.get? (Name.presence name depth) = none → t.mentions name = present) (t : Table)
    (within : t.Within doc)
    (retains : t.Retains
      (⟨Name.presence name depth, if present then "true" else "false"⟩ :: lines)) :
    ∃ n : Nat, Reader.presence name depth t =
      ⟨(fun _ => present) n, t.erase (Name.presence name depth), [], [], false⟩ := by
  refine ⟨0, ?_⟩
  rcases retains _ List.mem_cons_self with ⟨n, row⟩ | ⟨-, row⟩
  · exact presence_takes name depth present t n row
  · have row : t.get? (Name.presence name depth) = none := row
    have taken : Reading.take (Name.presence name depth) t = ⟨.missing, t, [], [], false⟩ := by
      simp [Reading.take, row]
    rw [NameMap.erase_of_get?_eq_none row, Reader.presence, Reading.bind_of_eq taken]
    simp only [Reading.look, missing t within retains row]

/-- A sequence without a line for its length is empty. -/
theorem length_infers {n current : Nat} {max : UInt32} (h : n ≤ max.toNat) (t : Table)
    (retains : t.Retains (⟨Name.length name, Nat.repr n⟩ :: lines)) :
    ∃ line, Reader.length name max.toNat current t =
      ⟨(line, n), t.erase (Name.length name), [], [], false⟩ := by
  rcases retains _ List.mem_cons_self with ⟨line, row⟩ | ⟨redundant, row⟩
  · exact ⟨line, length_takes name h t line row⟩
  · have row : t.get? (Name.length name) = none := row
    obtain rfl : n = 0 := by
      rcases redundant with ⟨m, d, selector⟩ | ⟨-, zero⟩
      · -- the word of a length is that of no presence
        have same := Name.child_injective (Name.word_of_isIdentifier (by decide))
          (Name.word_selector d) selector
        exact absurd (same ▸ (by decide : Name.isIdentifier "len"))
          (Name.not_isIdentifier_selector d)
      · refine Name.ofNat_injective ?_
        rw [← toList_natRepr, ← toList_natRepr]
        exact congrArg String.toList zero
    have taken : Reading.take (Name.length name) t = ⟨.missing, t, [], [], false⟩ := by
      simp [Reading.take, row]
    refine ⟨0, ?_⟩
    rw [NameMap.erase_of_get?_eq_none row, Reader.length, Reading.bind_of_eq taken]
    rfl

end

end Writer

end XdrText
