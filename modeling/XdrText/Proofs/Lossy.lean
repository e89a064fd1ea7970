import Mathlib.Data.List.Sort
import XdrText.Proofs.Latest

/-!
# XdrText — bytes that are no text

Documents are read from bytes, and where these are no UTF-8 they are replaced.  A line feed is never
part of what is replaced: in every state that the reader of UTF-8 gets into (`State.Sound`), the
byte 0x0A ends the character under way and is the line feed itself, and no other byte gives one.  So
the lines of the document are those of its bytes, each read on its own (`Utf8.splitOn_decodeLossy`).

**Other lines are not affected** (`Document.table_replaceLine`).  When any bytes without 0x0A are
put in the place of a line, the faults of the other lines without a colon stay, and so does the row
of each name that the line carries neither before nor after.
-/

namespace XdrText
open Text

namespace Text.Utf8

/-- The next byte of the character under way is no ASCII character, and neither is the character:
some bit read so far is 1, or the next byte has one. -/
def State.Sound : State → Prop
  | .start => True
  | .within code missing least _ => 0x80 ≤ least ∧ (0 < code ∨ 0 < missing ∧ 0x80 < least)

/-- Only the code point of a line feed is read as one. -/
theorem ofNat_ne_feed {n : Nat} (h : n ≠ 10) : Char.ofNat n ≠ '\n' := by
  intro same
  by_cases valid : n.isValidChar
  · have read : Char.ofNat n = Char.ofNatAux n valid := dif_pos valid
    exact h (congrArg Char.toNat (read.symm.trans same))
  · have read : Char.ofNat n = '\x00' := dif_neg valid
    exact absurd (read.symm.trans same) (by decide)

/-- The first byte of a character leaves a sound state. -/
theorem begin_sound (b : UInt8) : (begin b).1.Sound := by
  have bits (base : Nat) {least : UInt8} (le : least ≤ b) (lt : base < least.toNat) :
      0 < b.toNat - base := Nat.sub_pos_of_lt (Nat.lt_of_lt_of_le lt le)
  simp only [begin, Bool.and_eq_true, decide_eq_true_eq]
  split_ifs with ascii two e0 ed three f0 four f4
  · trivial
  · exact ⟨by decide, .inl (bits 0xC0 two.1 (by decide))⟩
  · exact ⟨by decide, .inr (by decide)⟩
  · exact ⟨by decide, .inl (by decide)⟩
  · exact ⟨by decide, .inl (bits 0xE0 three.1 (by decide))⟩
  · exact ⟨by decide, .inr (by decide)⟩
  · exact ⟨by decide, .inl (bits 0xF0 four.1 (by decide))⟩
  · exact ⟨by decide, .inl (by decide)⟩
  · trivial

/-- Of the bytes that begin a character only the line feed is read as one. -/
theorem feed_notMem_begin {b : UInt8} (h : b ≠ 0x0A) : '\n' ∉ (begin b).2 := by
  have feed : b.toNat ≠ 10 := fun same => h (UInt8.toNat_inj.mp same)
  rw [begin]
  repeat' split
  · simpa using (ofNat_ne_feed feed).symm
  all_goals simp [replacement]

section
variable {s : State} (h : s.Sound)
include h

theorem step_sound (b : UInt8) : (step s b).1.Sound := by
  cases s with
  | start => exact begin_sound b
  | within code missing least greatest =>
      rw [step]
      split
      next between =>
        cases missing with
        | zero => trivial
        | succ missing =>
            refine ⟨by decide, .inl ?_⟩
            simp only [Bool.and_eq_true, decide_eq_true_eq] at between
            have low : least.toNat ≤ b.toNat := between.1
            rcases h.2 with bits | ⟨-, above⟩
            · omega
            · have above : 0x80 < least.toNat := above
              omega
      · exact begin_sound b

/-- Only a line feed is read as one within a character, as no character of several bytes is
ASCII. -/
theorem feed_notMem_step {b : UInt8} (hb : b ≠ 0x0A) : '\n' ∉ (step s b).2 := by
  cases s with
  | start => exact feed_notMem_begin hb
  | within code missing least greatest =>
      rw [step]
      split
      · cases missing with
        | zero =>
            have bits : 0 < code := by simpa using h.2
            simpa using (ofNat_ne_feed (by omega)).symm
        | succ missing => exact List.not_mem_nil
      · exact List.not_mem_cons_of_ne_of_not_mem (by decide) (feed_notMem_begin hb)

/-- The line feed ends what is under way. -/
theorem step_feed : step s 0x0A = (.start, decodeFrom s [] ++ ['\n']) := by
  cases s with
  | start => rfl
  | within code missing least greatest =>
      have low : ¬ least ≤ 0x0A := fun le => absurd (UInt8.le_trans h.1 le) (by decide)
      simp only [step, low, decide_false, Bool.false_and]
      rfl

end

theorem decodeFrom_cons (s : State) (b : UInt8) (bs : Bytes) :
    decodeFrom s (b :: bs) = (step s b).2 ++ decodeFrom (step s b).1 bs := by
  cases s <;> rfl

/-! Whole byte strings, from any state -/

/-- A line feed parts what is read before it from what is read behind it. -/
theorem decodeFrom_feed {s : State} (h : s.Sound) (before after : Bytes) :
    decodeFrom s (before ++ 0x0A :: after) = decodeFrom s before ++ '\n' :: decodeLossy after := by
  induction before generalizing s with
  | nil =>
      rw [List.nil_append, decodeFrom_cons, step_feed h, List.append_assoc]
      rfl
  | cons b before ih =>
      rw [List.cons_append, decodeFrom_cons, decodeFrom_cons,
        ih (step_sound h b), List.append_assoc]

/-- Bytes without a line feed are read as a text without one. -/
theorem feed_notMem_decodeFrom {s : State} (h : s.Sound) {b : Bytes} (hb : 0x0A ∉ b) :
    '\n' ∉ decodeFrom s b := by
  induction b generalizing s with
  | nil => cases s <;> simp [decodeFrom, replacement]
  | cons x b ih =>
      obtain ⟨hx, hb⟩ := not_or.mp (mt List.mem_cons.mpr hb)
      rw [decodeFrom_cons, List.mem_append, not_or]
      exact ⟨feed_notMem_step h (Ne.symm hx), ih (step_sound h x) hb⟩

/-- Lines of bytes are read one by one. -/
theorem decodeLossy_intercalate : ∀ lines : List Bytes,
    decodeLossy ([0x0A].intercalate lines) = ['\n'].intercalate (lines.map decodeLossy)
  | [] => rfl
  | [l] => by rw [List.map_singleton, List.intercalate_singleton, List.intercalate_singleton]
  | l :: m :: lines => by
      rw [List.map_cons, List.map_cons, List.intercalate_cons_cons, List.intercalate_cons_cons,
        ← List.map_cons, ← decodeLossy_intercalate (m :: lines),
          List.append_assoc, List.append_assoc]
      exact decodeFrom_feed (s := .start) trivial ..

/-- The lines of a byte string are read on their own. -/
theorem splitOn_decodeLossy (b : Bytes) :
    (decodeLossy b).splitOn '\n' = (b.splitOn 0x0A).map decodeLossy := by
  have whole : decodeLossy b = ['\n'].intercalate ((b.splitOn 0x0A).map decodeLossy) := by
    rw [← decodeLossy_intercalate, List.intercalate_splitOn]
  rw [whole, List.splitOn_intercalate]
  · intro l hl
    obtain ⟨raw, hraw, rfl⟩ := List.mem_map.mp hl
    exact feed_notMem_decodeFrom (s := .start) trivial (Document.notMem_of_mem_splitOn hraw)
  · simp [List.splitOn_ne_nil]

end Text.Utf8

namespace Document

/-- The document that is read from bytes. -/
def ofBytes (b : Bytes) : String :=
  String.ofList (Utf8.decodeLossy b)

theorem readBytes_eq (s : Schema) (native name : String) (b : Bytes) (v : Value) :
    s.readBytes native name b v = s.read native name (ofBytes b) v :=
  rfl

/-- The bytes with new ones in the place of line `k`. -/
def replaceLine (k : Nat) (new b : Bytes) : Bytes :=
  [0x0A].intercalate ((b.splitOn 0x0A).mapIdx fun i l => if i + 1 = k then new else l)

/-- The lines of the document are the lines of the bytes. -/
theorem splitOn_ofBytes (b : Bytes) :
    (ofBytes b).toList.splitOn '\n' = (b.splitOn 0x0A).map Utf8.decodeLossy := by
  rw [ofBytes, String.toList_ofList, Utf8.splitOn_decodeLossy]

section
variable {k l : Nat} {new b : Bytes} (clean : 0x0A ∉ new)
include clean

/-- To replace a line leaves the others where they are. -/
theorem splitOn_replaceLine : (replaceLine k new b).splitOn 0x0A =
    (b.splitOn 0x0A).mapIdx fun i l => if i + 1 = k then new else l := by
  rw [replaceLine, List.splitOn_intercalate]
  · intro l hl
    obtain ⟨i, hi, rfl⟩ := List.mem_mapIdx.mp hl
    split
    · exact clean
    · exact notMem_of_mem_splitOn (List.getElem_mem hi)
  · simp [List.splitOn_ne_nil]

section
variable (other : l ≠ k)
include other

theorem isLine_replaceLine {line : List Char} :
    IsLine (ofBytes (replaceLine k new b)) l line ↔ IsLine (ofBytes b) l line := by
  simp only [IsLine, splitOn_ofBytes, splitOn_replaceLine clean]
  refine exists_congr fun i => exists_congr fun raw => and_congr_right fun hl => ?_
  simp [hl ▸ other]

/-- Any other line carries what it carried before. -/
theorem carries_replaceLine {name value : String} :
    Carries (ofBytes (replaceLine k new b)) l name value ↔ Carries (ofBytes b) l name value := by
  simp only [Carries, isLine_replaceLine clean other]

theorem stray_replaceLine : Stray (ofBytes (replaceLine k new b)) l ↔ Stray (ofBytes b) l := by
  simp only [Stray, isLine_replaceLine clean other]

end

/-- But for the line that is replaced, the stray lines are the same. -/
theorem strayLines_replaceLine : (strayLines (ofBytes (replaceLine k new b))).filter (· ≠ k) =
    (strayLines (ofBytes b)).filter (· ≠ k) := by
  refine List.Pairwise.eq_of_mem_iff (r := (· < ·)) ((pairwise_strayLines _).filter _)
    ((pairwise_strayLines _).filter _) fun l => ?_
  simp only [List.mem_filter, mem_strayLines_iff, decide_eq_true_eq]
  exact and_congr_left fun other => stray_replaceLine clean other

/-- Bytes that are put in the place of a line, whether they are text or not, change no fault of
another stray line and no row of a name that the line carries neither before nor after. -/
theorem table_replaceLine (k : Nat) (b : Bytes) :
    (syntaxFaults (ofBytes (replaceLine k new b))).filter (·.line ≠ k) =
      (syntaxFaults (ofBytes b)).filter (·.line ≠ k) ∧
    ∀ name, (∀ value, ¬ Carries (ofBytes b) k name value) →
      (∀ value, ¬ Carries (ofBytes (replaceLine k new b)) k name value) →
        (table (ofBytes (replaceLine k new b))).get? name = (table (ofBytes b)).get? name := by
  constructor
  · simp only [syntaxFaults, List.filter_map, Function.comp_def]
    rw [strayLines_replaceLine clean]
  · intro name before after
    have same : ∀ l value, Carries (ofBytes (replaceLine k new b)) l name value ↔
        Carries (ofBytes b) l name value := by
      intro l value
      by_cases here : l = k
      · exact iff_of_false (here ▸ after value) (here ▸ before value)
      · exact carries_replaceLine clean here
    refine Option.ext fun row => ?_
    simp only [get?_table_iff, same]

end

/-- Four lines, of which the third is stray. -/
def fourLines : Bytes :=
  Utf8.encode "a: 1\nb: 2\nc\nd: 4".toList

/-- A line that breaks off within a character. -/
def brokenLine : Bytes :=
  Utf8.encode "b: ".toList ++ [0xE2, 0x82]

theorem table_replaceLine_broken :
    0x0A ∉ brokenLine ∧ (∀ value, ¬ Carries (ofBytes fourLines) 2 "d" value) ∧
      (∀ value, ¬ Carries (ofBytes (replaceLine 2 brokenLine fourLines)) 2 "d" value) ∧
      (syntaxFaults (ofBytes (replaceLine 2 brokenLine fourLines))).filter (·.line ≠ 2) =
        [⟨3, .missingColon⟩] ∧
      (table (ofBytes (replaceLine 2 brokenLine fourLines))).get? "d" = some ⟨4, " 4"⟩ := by
  have clean : 0x0A ∉ brokenLine := by decide
  have old : rows (ofBytes fourLines) = [("a", ⟨1, " 1"⟩), ("b", ⟨2, " 2"⟩), ("d", ⟨4, " 4"⟩)] := by
    decide +kernel
  have new : rows (ofBytes (replaceLine 2 brokenLine fourLines)) =
      [("a", ⟨1, " 1"⟩), ("b", ⟨2, " \uFFFD"⟩), ("d", ⟨4, " 4"⟩)] := by decide +kernel
  have lacks {d : String} (h : ∀ row, ("d", row) ∈ rows d → row.line ≠ 2) :
      ∀ value, ¬ Carries d 2 "d" value := fun value carries =>
    h ⟨2, value⟩ (mem_rows_iff.mpr carries) rfl
  have before := lacks (d := ofBytes fourLines) (by simp [old])
  have after := lacks (d := ofBytes (replaceLine 2 brokenLine fourLines)) (by simp [new])
  obtain ⟨faults, names⟩ := table_replaceLine clean 2 fourLines
  refine ⟨clean, before, after, faults.trans ?_, (names "d" before after).trans ?_⟩
  · decide +kernel
  · decide +kernel

end Document
end XdrText
