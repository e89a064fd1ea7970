import Mathlib.Data.List.Nodup
import XdrText.Proofs.Key
import XdrText.Proofs.Name
import XdrText.Proofs.Sound
import XdrText.Proofs.Typing
import XdrText.Reader.Leaf
import XdrText.Writer

/-!
# XdrText — leaves that are read as they were written

A leaf is written on one line under its own name, and the text of the line is read back as the leaf
exactly when the leaf is legible (`Writer.plainLeaf_recovers`).  Only assets can be illegible.

This holds where the names and symbols of the schema are identifiers, no enum has a symbol twice
(`Schema.Identified`), and the annotator keeps its notes on one line and gives the native asset a
text of its own (`Annotator.Tame`).
-/

namespace XdrText
open Text Form Key

/-- The names in a schema are identifiers, and the symbols of each enum are distinct. -/
structure Schema.Identified (s : Schema) : Prop where
  field : ∀ f ∈ s.fields, Name.isIdentifier f.name
  tag : ∀ u ∈ s.unions, Name.isIdentifier u.tag
  symbol : ∀ e ∈ s.enums, ∀ x ∈ e.symbols, Name.isIdentifier x.1
  symbols_nodup : ∀ e ∈ s.enums, (e.symbols.map Prod.fst).Nodup

instance (s : Schema) : Decidable s.Identified :=
  decidable_of_iff
    ((∀ f ∈ s.fields, Name.isIdentifier f.name) ∧ (∀ u ∈ s.unions, Name.isIdentifier u.tag) ∧
      (∀ e ∈ s.enums, ∀ x ∈ e.symbols, Name.isIdentifier x.1) ∧
      ∀ e ∈ s.enums, (e.symbols.map Prod.fst).Nodup)
    ⟨fun ⟨field, tag, symbol, nodup⟩ => ⟨field, tag, symbol, nodup⟩,
      fun h => ⟨h.field, h.tag, h.symbol, h.symbols_nodup⟩⟩

/-- Notes have no line feed.  The text of the native asset has no blank, does not end in a `?`  and
is not that of another asset. -/
structure Annotator.Tame (a : Annotator) : Prop where
  account : ∀ x, '\n' ∉ (a.account x).toList
  signature : ∀ root g, '\n' ∉ (a.signature root g).toList
  signer : ∀ x, '\n' ∉ (a.signer x).toList
  native_blank : ∀ c ∈ a.native.toList, isBlank c = false
  native_mark : a.native.toList.getLast? ≠ some '?'
  native_text : ∀ x, x ≠ Asset.native → a.native.toList ≠ x.text

/-- Without commentary there is nothing to be tamed but the word for the native asset. -/
theorem Annotator.plain_tame (zone : Zone) : (plain zone).Tame where
  account _ := by simp [plain]
  signature _ _ := by simp [plain]
  signer _ := by simp [plain]
  native_blank := forall_of_all (x := defaultNative.toList) (by decide)
  native_mark := show defaultNative.toList.getLast? ≠ some '?' by decide
  native_text _ h := (Asset.text_ne_native h).symm

/-- An asset that is read back from its text, or a leaf of another kind. -/
def Leaf.Legible : Leaf → Prop
  | .asset a => a.Legible
  | _ => True

/-! ### Texts of one token -/

/-- A text that stays on its line and begins with a token. -/
structure Shows (x : String) (token : List Char) : Prop where
  settled : Settled x.toList
  first : firstToken x.toList = token

/-- Characters of a token: they are graphic and no `?`. -/
def Marks (token : List Char) : Prop :=
  ∀ c ∈ token, Graphic c ∧ c ≠ '?'

instance (token : List Char) : Decidable (Marks token) :=
  List.decidableBAll _ token

theorem Marks.noFeed {token : List Char} (h : Marks token) : '\n' ∉ token :=
  fun hc => absurd (h _ hc).1 (by decide)

/-- The digits of a number are marks. -/
theorem marks_ofNat (n : Nat) : Marks (Decimal.ofNat n) := by
  intro c hc
  refine ⟨Decimal.graphic_ofNat c hc, ?_⟩
  rintro rfl
  exact absurd (Decimal.isDigit_of_mem_ofNat hc) (by decide)

/-- So are those of an integer, and its sign. -/
theorem marks_repr (i : Int) : Marks (Int.repr i).toList := by
  rw [Decimal.toList_repr]
  split
  · exact marks_ofNat _
  · exact List.forall_mem_cons.mpr ⟨by decide, marks_ofNat _⟩

theorem repr_ne_nil (i : Int) : (Int.repr i).toList ≠ [] := by
  rw [Decimal.toList_repr]
  split
  · exact Nat.toDigits_ne_nil
  · nofun

theorem toList_natRepr (n : Nat) : (Nat.repr n).toList = Decimal.ofNat n :=
  Nat.toList_repr

namespace Shows
variable {text note : String}

/-- A token shows by itself. -/
theorem self (h : Marks text.toList) : Shows text text.toList where
  settled := .of_graphic (fun c hc => (h c hc).1) fun hc => (h _ hc).2 rfl
  first := firstToken_self fun c hc => (h c hc).1.isBlank

/-- A note in parentheses leaves the token in front of it as it is. -/
theorem annotated (ne : text.toList ≠ []) (h : Marks text.toList) (hn : '\n' ∉ note.toList) :
    Shows (text ++ " (" ++ note ++ ")") text.toList where
  settled := by simpa using Settled.parenthesis h.noFeed hn
  first := by
    have token := firstToken_append (" (".toList ++ note.toList ++ [')']) ne
      (fun c hc => (h c hc).1.isBlank) (by rintro _ ⟨⟩; decide)
    simpa using token

/-- A text with a note, if there is one, begins with the text. -/
theorem noted (text : String) (ne : text.toList ≠ []) (h : Marks text.toList)
    (hn : '\n' ∉ note.toList) :
    ∃ x, (∀ name, (Written.noted name text note).lines = [⟨name, x⟩]) ∧ Shows x text.toList := by
  by_cases hnote : note = ""
  · exact ⟨text, fun name => by rw [Written.noted, if_pos hnote]; rfl, self h⟩
  · exact ⟨_, fun name => by rw [Written.noted, if_neg hnote]; rfl, annotated ne h hn⟩

end Shows

/-- Words joined by commas stay on a line where each of them does. -/
theorem noFeed_intercalate : ∀ {words : List String}, (∀ w ∈ words, '\n' ∉ w.toList) →
    '\n' ∉ (", ".intercalate words).toList
  | [], _ => by simp
  | [w], h => by simpa using h w List.mem_cons_self
  | w :: w' :: words, h => by
      have rest := noFeed_intercalate fun x hx => h x (List.mem_cons_of_mem _ hx)
      rw [String.intercalate_cons_cons, String.toList_append, String.toList_append, List.mem_append,
        List.mem_append, not_or, not_or]
      exact ⟨⟨h w List.mem_cons_self, by decide⟩, rest⟩

namespace Reader

/-- The text of a leaf stays on its line and is read back as the leaf exactly when it is legible. -/
structure Recovers (r : Reader) (l : Leaf) (x : String) : Prop where
  settled : Settled x.toList
  parse : ∃ parse, r.leafParser? l = some parse ∧
    ∀ v, trimLeft v = trimLeft x.toList → (parse v = .ok l ↔ l.Legible)

variable {r : Reader} {l : Leaf} {x : String} {token : List Char}
  {parse : List Char → Except ParseFault Leaf}

/-- Where the first token decides, it is enough to parse it. -/
theorem Recovers.of_token (hx : Shows x token) (hp : r.leafParser? l = some parse)
    (h : ∀ v, firstToken v = token → (parse v = .ok l ↔ l.Legible)) : r.Recovers l x :=
  ⟨hx.settled, parse, hp, fun v hv => h v ((firstToken_congr hv).trans hx.first)⟩

/-- A number is read from the first token. -/
theorem parseNumber_ok {α : Type} {read : List Char → Except Decimal.Fault α} {v : List Char}
    {a : α} (hv : firstToken v = token) (h : read token = .ok a) : parseNumber read v = .ok a := by
  rw [parseNumber, hv, h]
  rfl

/-- A symbol is read as the first value that it has. -/
theorem parseEnum_token {e : EnumDecl} {m : Int32} {symbol : String} (hm : e.value? symbol = some m)
    {v : List Char} (hv : firstToken v = symbol.toList) : parseEnum e v = .ok m := by
  simp only [parseEnum, hv, String.ofList_toList, hm]

end Reader

/-- The symbol of a value has a value, which is that one unless the symbol has several. -/
theorem EnumDecl.exists_value? {e : EnumDecl} {n : Int32} {symbol : String}
    (hs : e.symbol? n = some symbol) : ∃ m, e.value? symbol = some m ∧
      ((∀ x ∈ e.symbols, ∀ y ∈ e.symbols, x.1 = y.1 → x.2 = y.2) → m = n) := by
  obtain ⟨x, hx, rfl⟩ := Option.map_eq_some_iff.mp hs
  have mem := List.mem_of_find?_eq_some hx
  have value : x.2 = n := by simpa using List.find?_some hx
  obtain ⟨y, hy⟩ := Option.isSome_iff_exists.mp
    (List.find?_isSome (p := fun s => s.1 = x.1).mpr ⟨x, mem, by simp⟩)
  have same : y.1 = x.1 := by simpa using List.find?_some hy
  exact ⟨y.2, Option.map_eq_some_iff.mpr ⟨y, hy, rfl⟩, fun single =>
    (single y (List.mem_of_find?_eq_some hy) x mem same).trans value⟩

/-! ### Leaves -/

namespace Writer
open Reader
variable {w : Writer}

/-- The reader for what a writer writes. -/
def reader (w : Writer) : Reader :=
  ⟨w.schema, w.annotator.native⟩

/-- The symbol of an enum is the first token of its line, whether or not all symbols stand behind
it. -/
theorem enum_shows {ty : String} {e : EnumDecl} (he : w.schema.enum? ty = some e)
    (identifiers : ∀ x ∈ e.symbols, Name.isIdentifier x.1) {n : Int32} {symbol : String}
    (hs : e.symbol? n = some symbol) (name : String) :
    ∃ x, w.enum name ty n = .line name x ∧ Shows x symbol.toList := by
  have marks : ∀ y ∈ e.symbols, Marks y.1.toList := fun y hy c hc =>
    have hc := Name.mem_of_isIdentifier (identifiers y hy) hc
    ⟨hc.1, hc.2.2.1⟩
  obtain ⟨p, hp, rfl⟩ := Option.map_eq_some_iff.mp hs
  have hpm := List.mem_of_find?_eq_some hp
  have ne : p.1.toList ≠ [] := fun hnil =>
    Name.ne_empty_of_isIdentifier (identifiers p hpm) (String.toList_injective hnil)
  have listed : '\n' ∉ (", ".intercalate e.symbolsByValue).toList := by
    refine noFeed_intercalate fun word hw => ?_
    obtain ⟨y, hy, rfl⟩ := List.mem_map.mp hw
    exact (marks y ((List.mergeSort_perm _ _).mem_iff.mp hy)).noFeed
  simp only [«enum», he, hs]
  refine ⟨_, rfl, ?_⟩
  split
  · exact .annotated ne (marks p hpm) listed
  · exact .self (marks p hpm)

/-- The symbol of an enum is read back. -/
theorem enum_recovers (identified : w.schema.Identified) {name ty : String} {n : Int32}
    (h : w.schema.Knows ty n) :
    ∃ x, (w.enum name ty n).lines = [⟨name, x⟩] ∧ w.reader.Recovers (.enum ty n) x := by
  obtain ⟨e, he, hsome⟩ := h
  obtain ⟨symbol, hs⟩ := Option.isSome_iff_exists.mp hsome
  have mem := List.mem_of_find?_eq_some he
  obtain ⟨x, line, shows⟩ := enum_shows he (identified.symbol e mem) hs name
  -- the first of that symbol is the only one
  obtain ⟨m, hm, unique⟩ := EnumDecl.exists_value? hs
  obtain rfl : m = n := unique fun x hx y hy same =>
    congrArg Prod.snd (List.inj_on_of_nodup_map (identified.symbols_nodup e mem) hx hy same)
  refine ⟨x, by rw [line]; rfl, .of_token shows (congrArg (Option.map _) he) fun v hv => ?_⟩
  exact iff_of_true (Except.map_eq_ok.mpr ⟨m, parseEnum_token hm hv, rfl⟩) trivial

/-- The text of the native asset is its own, and that of another asset is read when it is
legible. -/
theorem parseAsset_ok_iff (tame : w.annotator.Tame) {a : Asset} {v : List Char}
    (hv : firstToken v = if a = .native then w.annotator.native.toList else a.text) :
    Leaf.asset <$> parseAsset w.annotator.native v = .ok (.asset a) ↔ a.Legible := by
  have whole : Leaf.asset <$> parseAsset w.annotator.native v = .ok (.asset a) ↔
      parseAsset w.annotator.native v = .ok a := by
    rw [Except.map_eq_ok]
    simp
  rw [whole, parseAsset, hv]
  by_cases h : a = .native
  · simp [h, Asset.Legible]
  · simp only [if_neg h, if_neg (tame.native_text a h).symm, Except.mapError_eq_ok,
      Asset.parse_text_iff]

/-- An account shows by its text, whatever is noted of it. -/
theorem account_shows (tame : w.annotator.Tame) (a : Account) :
    ∃ x, (∀ name, (w.account name a).lines = [⟨name, x⟩]) ∧ Shows x a.text := by
  obtain ⟨x, hx, shows⟩ := Shows.noted (String.ofList a.text)
    (by simpa using a.text_ne_nil) (by simpa [Marks] using fun c => Account.mem_text)
    (tame.account a)
  exact ⟨x, hx, by simpa using shows⟩

/-- A leaf is written on one line, from which it is read back when it is legible. -/
theorem plainLeaf_recovers (identified : w.schema.Identified) (tame : w.annotator.Tame)
    {l : Leaf} (h : l.Within w.schema.Knows) (name : String) :
    ∃ x, (w.plainLeaf name l).lines = [⟨name, x⟩] ∧ w.reader.Recovers l x := by
  cases l with
  | bool b =>
      refine ⟨_, rfl, .of_token (.self ?_) rfl fun v hv => iff_of_true ?_ trivial⟩
      · cases b <;> decide
      · rw [parseBool, hv]
        cases b <;> rfl
  | int n =>
      refine ⟨_, rfl, .of_token (.self (marks_repr _)) rfl fun v hv => iff_of_true ?_ trivial⟩
      rw [parseNumber_ok hv (Decimal.readInt32_repr n)]
      rfl
  | uint n =>
      refine ⟨_, rfl, .of_token (.self (toList_natRepr _ ▸ marks_ofNat _)) rfl
        fun v hv => iff_of_true ?_ trivial⟩
      rw [parseNumber_ok (hv.trans (toList_natRepr _)) (Decimal.readUInt32_ofNat n)]
      rfl
  | hyper n =>
      refine ⟨_, rfl, .of_token (.self (marks_repr _)) rfl fun v hv => iff_of_true ?_ trivial⟩
      rw [parseNumber_ok hv (Decimal.readInt64_repr n)]
      rfl
  | uhyper n =>
      refine ⟨_, rfl, .of_token (.self (toList_natRepr _ ▸ marks_ofNat _)) rfl
        fun v hv => iff_of_true ?_ trivial⟩
      rw [parseNumber_ok (hv.trans (toList_natRepr _)) (Decimal.readUInt64_ofNat n)]
      rfl
  | string data max =>
      refine ⟨String.ofList (Literal.render data), by simp [plainLeaf], ?_, _, rfl,
        fun v hv => iff_of_true ?_ trivial⟩
      · simpa using Literal.settled_render data
      · rw [String.toList_ofList, Literal.trimLeft_render] at hv
        rw [Literal.scan_render hv]
        rfl
  | amount n =>
      have feed : '\n' ∉ (String.ofList (Scaled.render 7 n.toInt)).toList := by
        simpa using Scaled.noFeed_render 7 n.toInt
      obtain ⟨x, hx, shows⟩ := Shows.noted _ (repr_ne_nil _) (marks_repr n.toInt) feed
      refine ⟨x, hx name, .of_token shows rfl fun v hv => iff_of_true ?_ trivial⟩
      rw [parseNumber_ok hv (Decimal.readInt64_repr n)]
      rfl
  | time t =>
      -- the date ends in a parenthesis, but there may be none
      obtain ⟨feed, blank, last⟩ := Date.comment_spec t w.annotator.zone
      have shows : Shows (Nat.repr t.toNat ++ String.ofList (Date.comment t w.annotator.zone))
          (Decimal.ofNat t.toNat) := by
        constructor
        · rw [String.toList_append, String.toList_ofList, toList_natRepr]
          exact (toList_natRepr _ ▸ (Shows.self (marks_repr t.toNat)).settled).both
            ⟨feed, fun c hc => by rw [last c hc]; decide⟩
        · rw [String.toList_append, String.toList_ofList, toList_natRepr]
          exact firstToken_append _ Nat.toDigits_ne_nil
            (fun c hc => (marks_ofNat _ c hc).1.isBlank) fun c hc => by rw [blank c hc]; decide
      refine ⟨_, rfl, .of_token shows rfl fun v hv => iff_of_true ?_ trivial⟩
      rw [parseNumber_ok hv (Decimal.readUInt64_ofNat t)]
      rfl
  | «enum» ty n => exact enum_recovers identified h
  | fixed data =>
      refine ⟨_, rfl, .of_token (.self ?_) rfl fun v hv => iff_of_true ?_ trivial⟩
      · rw [String.toList_ofList]
        exact Hex.graphic_encode data
      · rw [String.toList_ofList] at hv
        rw [Octets.scanFixed_encode hv]
        rfl
  | code data =>
      refine ⟨_, rfl, ?_, _, rfl, fun v hv => iff_of_true ?_ trivial⟩
      · rw [String.toList_ofList]
        exact .of_graphic (fun c hc => (Code.graphic_render data c hc).1)
          fun hc => (Code.graphic_render data _ hc).2 rfl
      · rw [String.toList_ofList, Code.trimLeft_render] at hv
        rw [Code.scan_render_self hv]
        rfl
  | bytes data max =>
      refine ⟨String.ofList (Octets.render data), by simp [plainLeaf], ?_, _, rfl,
        fun v hv => iff_of_true ?_ trivial⟩
      · simpa using Octets.settled_render data
      · rw [String.toList_ofList] at hv
        rw [Octets.scan_render (firstToken_congr hv)]
        rfl
  | account a =>
      obtain ⟨x, hx, shows⟩ := account_shows tame a
      refine ⟨x, hx name, .of_token shows rfl fun v hv => iff_of_true ?_ trivial⟩
      rw [hv, Account.parse_text]
      rfl
  | signer k =>
      obtain ⟨x, hx, shows⟩ := Shows.noted (String.ofList k.text)
        (by simpa using k.text_ne_nil) (by simpa [Marks] using fun c => Signer.mem_text)
        (tame.signer k)
      refine ⟨x, hx name, .of_token shows rfl fun v hv => iff_of_true ?_ trivial⟩
      rw [hv, String.toList_ofList, Signer.parse_text]
      rfl
  | asset a =>
      by_cases native : a = .native
      · subst native
        have shows : Shows w.annotator.native w.annotator.native.toList :=
          ⟨.of_tokens tame.native_blank tame.native_mark, firstToken_self tame.native_blank⟩
        refine ⟨_, rfl, .of_token shows rfl fun v hv => ?_⟩
        exact parseAsset_ok_iff tame (by rw [hv, if_pos rfl])
      · refine ⟨String.ofList a.text, ?_, .of_token (.self ?_) rfl fun v hv => ?_⟩
        · cases a with
          | native => exact absurd rfl native
          | alphaNum4 | alphaNum12 => rfl
        · simpa [Marks] using fun c => Asset.mem_text
        · rw [String.toList_ofList] at hv
          exact parseAsset_ok_iff tame (by rw [hv, if_neg native])

end Writer

end XdrText
