import Mathlib.Algebra.Order.BigOperators.Group.List
import Mathlib.Algebra.Order.Group.Nat
import XdrText.Proofs.Judgement
import XdrText.Proofs.Revision

/-!
# XdrText — a text that no rule accepts

Whatever is there, some text is refused: a quotation mark that nothing closes, with enough letters
behind it to be no symbol, no code and no alias of the native asset (`Text.scribble`).  So the fault
of a row that is judged can be brought about by its text alone, in each of the places where rows are
judged (`Rule.Touchy`).
-/

namespace XdrText
open Text Form Key

namespace Text

/-- An opening quotation mark and letters behind it. -/
def scribble (k : Nat) : List Char :=
  '"' :: List.replicate (k + 1) 'x'

variable {k : Nat}

theorem graphic_scribble : ∀ c ∈ scribble k, Graphic c := by
  intro c hc
  rcases List.mem_cons.mp hc with rfl | hc
  · decide
  · rw [List.eq_of_mem_replicate hc]
    decide

/-- The letters can be as many as one likes. -/
theorem length_scribble : (scribble k).length = k + 2 := by
  simp [scribble]

/-- A scribble is a single token. -/
theorem firstToken_scribble : firstToken (scribble k) = scribble k :=
  firstToken_self fun c hc => (graphic_scribble c hc).isBlank

theorem trimLeft_scribble : trimLeft (scribble k) = scribble k :=
  trimLeft_of_head fun c hc => (graphic_scribble c (List.mem_of_head? hc)).isBlank

/-- The last letter stops the search for blanks and is no mark. -/
theorem entry_scribble (line : Nat) :
    Row.entry ⟨line, String.ofList (scribble k)⟩ = (.text line (scribble k), false) := by
  have back : scribble k = ('x' :: (List.replicate k 'x' ++ ['"'])).reverse := by
    simp [scribble, List.replicate_succ']
  have letter : ¬ isBlank 'x' = true := by decide
  simp only [Row.entry, String.toList_ofList]
  rw [back, List.reverse_reverse, List.dropWhile_cons_of_neg letter]
  split
  next heq => exact absurd (List.cons.inj heq).1 (by decide)
  next => rfl

/-- A scribble stays on its line. -/
theorem oneLine_scribble : Document.OneLine (String.ofList (scribble k)) := by
  constructor <;> rw [String.toList_ofList]
  · exact fun hc => absurd (graphic_scribble _ hc) (by decide)
  · exact fun hc => absurd (graphic_scribble _ (List.mem_of_getLast? hc)) (by decide)

/-- Not every text can be parsed. -/
def Fallible {ε α : Type} (parse : List Char → Except ε α) : Prop :=
  ∃ k f, parse (scribble k) = .error f

namespace Fallible
variable {ε ε' α β : Type} {parse : List Char → Except ε α}

/-- What is made of the result does not matter to a refusal. -/
theorem map (h : Fallible parse) (f : α → β) : Fallible fun s => f <$> parse s := by
  obtain ⟨k, fault, hk⟩ := h
  refine ⟨k, fault, ?_⟩
  simp only [hk]
  rfl

/-- A refusal in other words is a refusal. -/
theorem mapError (h : Fallible parse) (f : ε → ε') : Fallible fun s => (parse s).mapError f := by
  obtain ⟨k, fault, hk⟩ := h
  refine ⟨k, f fault, ?_⟩
  simp only [hk]
  rfl

/-- A text that is one token is refused where the token is. -/
theorem token (h : Fallible parse) : Fallible fun s => parse (firstToken s) := by
  obtain ⟨k, fault, hk⟩ := h
  exact ⟨k, fault, by simp only [firstToken_scribble, hk]⟩

end Fallible
end Text

/-! ### Forms -/

namespace Text

/-- A quotation mark is no digit. -/
theorem Decimal.readNat_fallible (greatest : Nat) : Fallible (readNat greatest) :=
  ⟨0, .badDigit, rfl⟩

/-- Nor is it a sign. -/
theorem Decimal.readInt_fallible (least greatest : Nat) : Fallible (readInt least greatest) :=
  ⟨0, .badDigit, rfl⟩

end Text

namespace Form

/-- The quotation mark is never closed. -/
theorem Literal.scan_fallible : Fallible scan :=
  ⟨0, .unterminated, rfl⟩

theorem Octets.scan_fallible : Fallible scan :=
  ⟨0, .hex (.badDigit 0x22 0), rfl⟩

theorem Octets.scanFixed_fallible (n : Nat) : Fallible (scanFixed n) :=
  ⟨0, .hex (.badDigit 0x22 0), rfl⟩

/-- As bytes of a code, the letters stand for themselves, as many as are asked for. -/
theorem Code.scanBytes_letters : ∀ n m,
    scanBytes n (List.replicate (n + m) 'x') = .ok (List.replicate n 0x78, List.replicate m 'x')
  | 0, m => by simp [scanBytes]
  | n + 1, m => by
      have letter : scanByte 'x' (List.replicate (n + m) 'x') =
          .ok (0x78, List.replicate (n + m) 'x') :=
        rfl
      rw [Nat.add_right_comm, List.replicate_succ, scanBytes, if_neg (by decide), letter]
      simp only [bind, Except.bind, scanBytes_letters n m]
      rfl

/-- More letters than the code has bytes. -/
theorem Code.scan_fallible (n : Nat) : Fallible (scan n) := by
  have scanned : ∃ b c s, scanBytes n (scribble n) = .ok (b, c :: s) ∧ isBlank c = false := by
    cases n with
    | zero => exact ⟨[], '"', ['x'], rfl, by decide⟩
    | succ n =>
        have mark : scanByte '"' (List.replicate (n + 2) 'x') =
          .ok (0x22, List.replicate (n + 2) 'x') := rfl
        refine ⟨0x22 :: List.replicate n 0x78, 'x', ['x'], ?_, by decide⟩
        rw [scribble, scanBytes, if_neg (by decide), mark]
        simp only [bind, Except.bind, scanBytes_letters n 2]
        rfl
  obtain ⟨b, c, s, scanned, unblank⟩ := scanned
  refine ⟨n, .tooLong, ?_⟩
  simp [scan, trimLeft_scribble, scanned, bind, Except.bind, unblank, throw, throwThe,
    MonadExceptOf.throw]

end Form

namespace Key

/-- There is no quotation mark in an address. -/
theorem Account.parse_fallible : Fallible parse :=
  ⟨0, .strKey .invalidBase32, rfl⟩

theorem Signer.parse_fallible : Fallible parse :=
  ⟨0, .strKey .invalidBase32, rfl⟩

/-- Without a colon there is no issuer. -/
theorem Asset.parse_scribble (k : Nat) :
    parse (scribble k) = .error (.badAsset (String.ofList (scribble k))) := by
  have foreign : scribble k ≠ "native".toList := fun same => by cases (List.cons.inj same).1
  have whole : (scribble k).reverse.dropWhile (· ≠ ':') = [] := by
    refine List.dropWhile_eq_nil_iff.mpr fun c hc => decide_eq_true ?_
    rintro rfl
    rcases List.mem_cons.mp (List.mem_reverse.mp hc) with h | h
    · cases h
    · cases List.eq_of_mem_replicate h
  rw [parse, if_neg foreign, splitLastColon?, whole]

end Key

/-! ### Leaves and tags -/

namespace Reader

/-- Only two words are truth values. -/
theorem parseBool_fallible : Fallible parseBool :=
  ⟨0, .bool (String.ofList (scribble 0)), rfl⟩

/-- The text is longer than all symbols. -/
theorem parseEnum_fallible (e : EnumDecl) : Fallible (parseEnum e) := by
  let longest := (e.symbols.map fun x => x.1.length).sum
  have unknown : e.value? (String.ofList (scribble longest)) = none := by
    rw [EnumDecl.value?, Option.map_eq_none_iff, List.find?_eq_none]
    intro x hx same
    have same : x.1 = String.ofList (scribble longest) := by simpa using same
    have short : x.1.length ≤ longest :=
      List.single_le_sum (fun _ _ => Nat.zero_le _) _ (List.mem_map_of_mem hx)
    rw [same, String.length_ofList, length_scribble] at short
    omega
  refine ⟨longest, .enum e.name (String.ofList (scribble longest)), ?_⟩
  simp only [parseEnum, firstToken_scribble, unknown]
  rfl

/-- The text is longer than the alias. -/
theorem parseAsset_fallible (native : String) : Fallible (parseAsset native) := by
  have foreign : scribble native.length ≠ native.toList := by
    intro same
    have length := congrArg List.length same
    rw [length_scribble, String.length_toList] at length
    omega
  refine ⟨native.length, .key (.badAsset (String.ofList (scribble native.length))), ?_⟩
  rw [parseAsset, firstToken_scribble]
  simp only [if_neg foreign, Asset.parse_scribble]
  rfl

theorem parseHint_fallible : Fallible parseHint :=
  ⟨0, .octets (.hex (.badDigit 0x22 0)), rfl⟩

/-- A number that is read from its first token is refused where the token is. -/
theorem parseNumber_fallible {α : Type} {read : List Char → Except Decimal.Fault α}
    (h : Fallible read) : Fallible (parseNumber read) :=
  (h.mapError ParseFault.number).token

/-- Each leaf that is read from a text has texts that it refuses. -/
theorem leafParser?_fallible {r : Reader} {l : Leaf} {parse : List Char → Except ParseFault Leaf}
    (h : r.leafParser? l = some parse) : Fallible parse := by
  cases l with
  | bool b =>
      cases h
      exact parseBool_fallible.map _
  | int | hyper | amount =>
      cases h
      exact (parseNumber_fallible ((Decimal.readInt_fallible _ _).map _)).map _
  | uint | uhyper | time =>
      cases h
      exact (parseNumber_fallible ((Decimal.readNat_fallible _).map _)).map _
  | string =>
      cases h
      exact (Literal.scan_fallible.mapError _).map _
  | «enum» =>
      obtain ⟨e, -, rfl⟩ := Option.map_eq_some_iff.mp h
      exact (parseEnum_fallible e).map _
  | fixed data =>
      cases h
      exact ((Octets.scanFixed_fallible _).mapError _).map _
  | code data =>
      cases h
      exact ((Code.scan_fallible _).mapError _).map _
  | bytes =>
      cases h
      exact (Octets.scan_fallible.mapError _).map _
  | account =>
      cases h
      exact (Account.parse_fallible.mapError _).token.map _
  | signer =>
      cases h
      exact (Signer.parse_fallible.mapError _).token.map _
  | asset =>
      cases h
      exact (parseAsset_fallible r.native).map _

/-- Each tag that is read from a text has texts that it refuses. -/
theorem tagParser?_fallible {r : Reader} {u : TagType} {parse : List Char → Except ParseFault Int32}
    (h : r.tagParser? u = some parse) : Fallible parse := by
  cases u with
  | int =>
      cases h
      exact parseNumber_fallible ((Decimal.readInt_fallible _ _).map _)
  | «enum» =>
      obtain ⟨e, -, rfl⟩ := Option.map_eq_some_iff.mp h
      exact parseEnum_fallible e

end Reader

/-! ### Rules -/

/-- The type of a new node has an initial value. -/
def Cause.OfText : Cause → Prop
  | .misplaced (.noInitial _) => False
  | _ => True

namespace Rule
variable {α β : Type}

/-- Some text makes the rule find a fault. -/
def Touchy (rule : Rule α) (old : α) : Prop :=
  ∃ k c, (rule old (scribble k)).2 = some c ∧ c.OfText

/-- A rule that parses a text finds it wrong where the parser refuses it, whatever it does with the
others. -/
theorem parsed_touchy {parse : List Char → Except ParseFault β} (h : Fallible parse)
    (next : α → β → α × Option Cause) (old : α) : (parsed parse next).Touchy old := by
  obtain ⟨k, f, hk⟩ := h
  exact ⟨k, .malformed f, by simp only [parsed, hk], trivial⟩

/-- A rule that is chosen by the old value is touchy where the chosen one is. -/
theorem choose_touchy {rule? : α → Option (Rule α)} {old : α} {rule : Rule α}
    (h : rule? old = some rule) (touchy : rule.Touchy old) : (choose rule?).Touchy old := by
  obtain ⟨k, c, hc, ofText⟩ := touchy
  exact ⟨k, c, by simpa only [choose, h] using hc, ofText⟩

end Rule

namespace Reader
variable {r : Reader} {name : String}

/-- A leaf that is read from a text can be found wrong. -/
theorem leafRule_touchy {l : Leaf} {parse : List Char → Except ParseFault Leaf}
    (h : r.leafParser? l = some parse) : (r.leafRule name).Touchy l :=
  Rule.choose_touchy (by rw [h, Option.map_some]) (Rule.parsed_touchy (leafParser?_fallible h) _ l)

theorem sourceRule_touchy (l : Leaf) : sourceRule.Touchy l :=
  Rule.parsed_touchy (Account.parse_fallible.mapError ParseFault.key).token _ l

theorem hintRule_touchy (hint : Block 4) : hintRule.Touchy hint :=
  Rule.parsed_touchy parseHint_fallible _ hint

theorem bodyRule_touchy (body : Bytes) : (bodyRule name).Touchy body :=
  Rule.parsed_touchy (Octets.scan_fallible.mapError _) _ body

theorem presenceRule_touchy (old : Option Bool) : (presenceRule name).Touchy old :=
  ⟨0, .misplaced (.presence name (String.ofList (scribble 0))), rfl, trivial⟩

theorem countRule_touchy (max old : Nat) : (countRule name max).Touchy old :=
  Rule.parsed_touchy (parseNumber_fallible ((Decimal.readNat_fallible _).map _)) _ old

/-- So can a tag. -/
theorem tagRule_touchy {u : ResolvedUnion} {parse : List Char → Except ParseFault Int32}
    (h : r.tagParser? u.tagType = some parse) (old : Int32) : (r.tagRule u name).Touchy old :=
  Rule.choose_touchy (by rw [h, Option.map_some]) (Rule.parsed_touchy (tagParser?_fallible h) _ old)

end Reader
end XdrText
