import XdrText.Proofs.Addition
import XdrText.Proofs.Again
import XdrText.Proofs.EnvelopeText
import XdrText.Proofs.Totality

/-!
# XdrText — the source account of the oldest transactions

The source account of a transaction of the first kind is a bare key.  A document gives it as an
account under the short name, or in hexadecimal under the long one; a row of the long name beside
one of the short name is dropped.  Reading the key takes these rows away without a fault and without
a request, and nothing else in an envelope looks at them.  So the rest of the walk is that over the
document without them (`Table.Gives`).

**Forms of the source** (`Envelope.read_source`).  Each of the forms, at the end of a document that
does not mention the source, gives the envelope that the document leaves, with the key in its place.
That envelope is written with the short name.
-/

namespace XdrText
open Text Form Key

/-! ### Depth -/

namespace Schema
variable {s : Schema}

/-- Where reading comes to an end, a greater depth comes to the same, faults and their lines
included. -/
theorem readWithin_deeper {d : Definitions} (resolved : d.resolve = .ok s) {ty : Ty} {v : Value}
    (h : s.HasType ty v) {limit limit' : Nat} (le : limit ≤ limit') {native name doc : String}
    (complete : (s.readWithin limit native name doc v).complete = true) :
    s.readWithin limit' native name doc v = s.readWithin limit native name doc v := by
  have alike := readWithin_agree (R := fun _ => True)
      (Definitions.resolve_sound resolved) h le complete
    (fun _ _ => trivial) fun _ _ => rfl
  have complete' := alike.complete.trans complete
  -- both leave one tree, and each repeats itself there
  have first := readWithin_again resolved h complete 0
  have second := readWithin_again resolved h complete' 0
  rw [alike.value] at second
  exact second.symm.trans first

end Schema

namespace Envelope

/-- The name under which the source of a transaction is written. -/
def shortSource : String := "tx.sourceAccount"

/-- The name of the field of a bare source key. -/
def longSource : String := "tx.sourceAccountEd25519"

/-- The place of the bare source key in an envelope of the first kind. -/
def sourcePath : List Step := [.arm, .field 0, .field 0]

/-- A limit beyond that of reading makes no difference. -/
theorem read_deeper {v : Value} (h : schema.HasType ty v) {native doc : String} {limit : Nat}
    (enough : schema.nestingLimit (Document.table doc) v ≤ limit) :
    schema.readWithin limit native "" doc v = schema.read native "" doc v :=
  Schema.readWithin_deeper resolve_definitions h enough (read_complete h native "" doc)

/-! ### Rows of the source -/

/-- The row with the address of the account. -/
def shortRow (key : Block 32) : String × String :=
  (shortSource, " " ++ String.ofList (Account.ed25519 key).text)

/-- The row with the bytes of the key. -/
def longRow (key : Block 32) : String × String :=
  (longSource, " " ++ String.ofList (Hex.encode key.bytes))

/-- The rows that give a key to the source; a long name beside a short one can say anything. -/
inductive SourceRows (key : Block 32) : List (String × String) → Prop
  | short : SourceRows key [shortRow key]
  | long : SourceRows key [longRow key]
  | shortLong {content : String} (h : '\n' ∉ content.toList) :
      SourceRows key [shortRow key, (longSource, content)]
  | longShort {content : String} (h : '\n' ∉ content.toList) :
      SourceRows key [(longSource, content), shortRow key]

theorem stands_shortSource : Name.Stands shortSource := by
  exact ⟨by decide, by decide, by decide⟩

theorem stands_longSource : Name.Stands longSource := by
  exact ⟨by decide, by decide, by decide⟩

theorem settled_key (key : Block 32) : Settled (Account.ed25519 key).text :=
  .of_graphic (fun _ hc => (Account.mem_text hc).1) fun hq => (Account.mem_text hq).2 rfl

theorem SourceRows.ofRows {key : Block 32} {entries : List (String × String)}
    (h : SourceRows key entries) : Document.OfRows entries := by
  have short : Name.Stands (shortRow key).1 ∧ '\n' ∉ (shortRow key).2.toList :=
    ⟨stands_shortSource, by simp [shortRow, (settled_key key).noFeed]⟩
  have long : Name.Stands (longRow key).1 ∧ '\n' ∉ (longRow key).2.toList :=
    ⟨stands_longSource, by simp [longRow, (Octets.settled_encode key.bytes).noFeed]⟩
  cases h with
  | short => simpa [Document.OfRows] using short
  | long => simpa [Document.OfRows] using long
  | shortLong h => simpa [Document.OfRows] using ⟨short, stands_longSource, h⟩
  | longShort h => simpa [Document.OfRows] using ⟨⟨stands_longSource, h⟩, short⟩

end Envelope

/-- The second table is the first one, in which no row is for the source, with rows that give it a
key: one of the short name, or one of the long name only. -/
structure Table.Gives (key : Block 32) (t t' : Table) : Prop where
  short : t.get? Envelope.shortSource = none
  long : t.get? Envelope.longSource = none
  others : ∀ n, n ≠ Envelope.shortSource → n ≠ Envelope.longSource → t'.get? n = t.get? n
  given :
    (∃ row, t'.get? Envelope.shortSource = some row ∧ ∀ old,
      Reading.verdict Envelope.shortSource Reader.sourceRule old row =
        (.fixed key.bytes, none, [])) ∨
    (t'.get? Envelope.shortSource = none ∧ ∃ row, t'.get? Envelope.longSource = some row ∧
      ∀ (r : Reader) (data : Bytes), data.length = 32 →
        Reading.verdict Envelope.longSource (r.leafRule Envelope.longSource) (.fixed data) row =
          (.fixed key.bytes, none, []))

namespace Table.Gives
open Envelope Reader
variable {key : Block 32} {t t' : Table} {name : String}

/-- To take the row of another name from both tables leaves what they give to the source. -/
theorem erase (h : t.Gives key t') (short : name ≠ shortSource) (long : name ≠ longSource) :
    Table.Gives key (t.erase name) (t'.erase name) where
  short := by rw [NameMap.get?_erase, if_neg short.symm, h.short]
  long := by rw [NameMap.get?_erase, if_neg long.symm, h.long]
  others n hs hl := by
    rw [NameMap.get?_erase, NameMap.get?_erase]
    split
    · rfl
    · exact h.others n hs hl
  given := by
    simpa only [NameMap.get?_erase, if_neg short.symm, if_neg long.symm] using h.given

/-- Both rows of the source taken away leave the first table. -/
theorem erase_both (h : t.Gives key t') :
    NameMap.erase (NameMap.erase t' shortSource) longSource = t := by
  refine NameMap.eq_of_get? fun n => ?_
  rw [NameMap.get?_erase, NameMap.get?_erase]
  by_cases hl : n = longSource
  · rw [if_pos hl, hl, h.long]
  · by_cases hs : n = shortSource
    · rw [if_neg hl, if_pos hs, hs, h.short]
    · rw [if_neg hl, if_neg hs, h.others n hs hl]

theorem erase_long (h : t.Gives key t') (none : t'.get? shortSource = none) :
    t'.erase longSource = t := by
  rw [← h.erase_both, NameMap.erase_of_get?_eq_none none]

end Table.Gives

/-- The second outcome is the first one, with rows of the source that are still there. -/
structure Outcome.Leaves {α : Type} (key : Block 32) (a b : Outcome α) : Prop where
  value : b.value = a.value
  rest : a.rest.Gives key b.rest
  faults : b.faults = a.faults
  asked : b.asked = a.asked
  overrun : b.overrun = a.overrun

/-- A tag is judged by its own row. -/
theorem Table.Gives.settle {key : Block 32} {t t' : Table} {name : String} {r : Reader}
    (h : t.Gives key t') (short : name ≠ Envelope.shortSource) (long : name ≠ Envelope.longSource)
    (u : ResolvedUnion) (old : Int32) :
    Outcome.Leaves key (r.settle u name old t) (r.settle u name old t') := by
  have same := h.others name short long
  rw [Reader.settle]
  cases r.tagParser? u.tagType with
  | none => exact ⟨rfl, h, rfl, rfl, rfl⟩
  | some _ =>
      simp only
      cases hr : t.get? name with
      | none =>
          rw [Reading.judge_of_none hr, Reading.judge_of_none (same.trans hr)]
          exact ⟨rfl, h, rfl, rfl, rfl⟩
      | some row =>
          rw [Reading.judge_of_some hr, Reading.judge_of_some (same.trans hr)]
          exact ⟨rfl, h.erase short long, rfl, rfl, rfl⟩

namespace Envelope
open Reader
variable {key : Block 32} {t t' : Table} {r : Reader}

/-- Without a row of the source the key stays as it is. -/
theorem leaf_ungiven (short : t.get? shortSource = none) (long : t.get? longSource = none)
    (data : Bytes) : r.leaf longSource (.fixed data) t = ⟨.fixed data, t, [], [], false⟩ := by
  have bare : (Leaf.fixed data).bareSource? longSource = some (shortSource, data) := rfl
  have plain : r.plainLeaf longSource (.fixed data) t = ⟨.fixed data, t, [], [], false⟩ := by
    rw [plainLeaf_eq_judge]
    exact Reading.judge_of_none long
  simp only [leaf, bare, bareSource_eq_judge, bind, Reading.bind,
    Reading.judge?_of_none short, plain]
  rfl

/-- The rows of the source give the key, and are taken away. -/
theorem leaf_given (h : t.Gives key t') {data : Bytes} (length : data.length = 32) :
    r.leaf longSource (.fixed data) t' = ⟨.fixed key.bytes, t, [], [], false⟩ := by
  have bare : (Leaf.fixed data).bareSource? longSource = some (shortSource, data) := rfl
  simp only [leaf, bare, bareSource_eq_judge, bind, Reading.bind]
  rcases h.given with ⟨row, hr, verdict⟩ | ⟨none, row, hr, verdict⟩
  · rw [Reading.judge?_of_some hr, verdict]
    exact Outcome.ext rfl h.erase_both rfl rfl rfl
  · have plain : r.plainLeaf longSource (.fixed data) t' =
        ⟨.fixed key.bytes, t, [], [], false⟩ := by
      rw [plainLeaf_eq_judge]
      refine (Reading.judge_of_some hr).trans ?_
      rw [verdict r data length, h.erase_long none]
      rfl
    rw [Reading.judge?_of_none none]
    simp only [plain]
    rfl

end Envelope

/-! ### The walk -/

/-- A step comes to the same on both tables, but for the node at the end of a path. -/
def Reading.Differs (path : List Step) (w : Value) (x : Reading Value) (t t' : Table) : Prop :=
  x t' = { x t with value := Value.replace w (x t).value path }

namespace Reading.Differs
variable {path : List Step} {w : Value} {x : Reading Value} {t t' : Table}

theorem map (h : x.Differs path w t t') {f : Value → Value} {s : Step}
    (child : ∀ v, (f v).child? s = some v) (set : ∀ u v, Value.setChild u (f v) s = f u) :
    Differs (s :: path) w (f <$> x) t t' := by
  simp only [Differs] at h ⊢
  simp only [Functor.map, Reading.bind, h, Value.replace, Function.comp_apply,
    Reading.pure, child, set]

/-- A step that leaves the rows of the source comes first. -/
theorem after {α : Type} {key : Block 32} {y : Reading α} {f : α → Reading Value}
    (first : Outcome.Leaves key (y t) (y t'))
    (h : Differs path w (f (y t).value) (y t).rest (y t').rest) :
    Differs path w (y >>= f) t t' := by
  simp only [Differs] at h ⊢
  simp only [bind, Reading.bind, first.value, first.faults, first.asked, first.overrun, h]

/-- The first field of a struct. -/
theorem field {r : Reader} {new : Reader.NodeReader} {outer : Nat} {name ty f : String} {v : Value}
    {fs : List (String × Value)}
    (h : Differs path w (r.nodeWith new 0 (Name.child name f) v) t t') :
    Differs (.field 0 :: path) w (r.nodeWith new outer name (.struct ty ((f, v) :: fs))) t t' := by
  simp only [Differs] at h ⊢
  simp only [Reader.nodeWith, Reader.fieldsWith, bind, Reading.bind, h]
  rfl

end Reading.Differs

namespace Envelope
open Reader
variable {key : Block 32} {t t' : Table} {native : String} {new : NodeReader}

/-- The union of envelopes, and its arm for transactions of the first kind. -/
theorem exists_envelope : ∃ u, schema.union? typeName = some u ∧ u.tag = "type" ∧ u.inline = true ∧
    u.arm? 0 = some (some ⟨"v0", .struct "TransactionV0Envelope"⟩) :=
  ⟨_, rfl, rfl, rfl, rfl⟩

/-- The struct of a transaction of the first kind begins with its source. -/
theorem exists_transaction : ∃ d, schema.struct? "TransactionV0" = some d ∧
    d.fields = ⟨"sourceAccountEd25519", .fixed 32⟩ :: d.fields.tail :=
  ⟨_, rfl, rfl⟩

/-- An envelope of the first kind holds a transaction of that kind. -/
theorem exists_first {u : ResolvedUnion} (hu : schema.union? typeName = some u)
    (arms : u.arm? 0 = some (some ⟨"v0", .struct "TransactionV0Envelope"⟩)) {v : Value}
    (h : schema.HasType ty v) (first : v.tag? = some 0) :
    ∃ x, v = .union typeName (.leaf (u.tagType.leaf 0)) (some x) ∧
      (u.tagType.leaf 0).Within schema.Knows ∧
        schema.HasType (.struct "TransactionV0Envelope") x := by
  obtain ⟨d, _, rfl, -⟩ := Schema.Typed.exists_union hu h
  obtain rfl : d = 0 := Option.some.inj ((TagType.discriminant?_leaf u.tagType d).symm.trans first)
  obtain ⟨-, u', e, hu', tag, known, arm⟩ := h.of_union
  cases Option.some.inj (hu.symm.trans hu')
  obtain rfl := TagType.leaf_injective (Value.leaf.inj tag)
  rcases arm.void_or_value with ⟨void, -⟩ | ⟨f, x, selected, rfl, typed⟩
  · rw [arms] at void
    cases void
  · rw [arms] at selected
    cases selected
    exact ⟨x, rfl, known, typed⟩

/-- The source of a transaction of the first kind, with the rest of it and of its envelope. -/
theorem exists_source {known : String → Int32 → Prop} {v : Value}
    (h : schema.Typed known (.struct "TransactionV0Envelope") v) {d : StructDecl}
    (hd : schema.struct? "TransactionV0" = some d)
    (fields : d.fields = ⟨"sourceAccountEd25519", .fixed 32⟩ :: d.fields.tail) :
    ∃ data rest more, data.length = 32 ∧ schema.TypedFields known d.fields.tail rest ∧
      schema.TypedFields known [signatures] more ∧
      v = .struct "TransactionV0Envelope" (("tx", .struct "TransactionV0"
        (("sourceAccountEd25519", .leaf (.fixed data)) :: rest)) :: more) := by
  have envelope : schema.struct? "TransactionV0Envelope" =
    some ⟨"TransactionV0Envelope", [⟨"tx", .struct "TransactionV0"⟩, signatures]⟩ := rfl
  obtain ⟨_, rfl, parts⟩ := h.exists_struct envelope
  cases parts with
  | @cons _ _ _ more tx signed =>
      obtain ⟨_, rfl, parts⟩ := tx.exists_struct hd
      rw [fields] at parts
      cases parts with
      | @cons _ _ _ rest source typed =>
          obtain ⟨l, rfl, hl⟩ := source.exists_leaf (l := .fixed (Block.zero 32).bytes)
          obtain ⟨data, rfl, length⟩ := Leaf.exists_fixed hl
          exact ⟨data, rest, more, length, typed, signed, rfl⟩

/-- In an envelope of the first kind the rows of the source change its key and nothing else. -/
theorem transaction_differs (h : t.Gives key t') {known : String → Int32 → Prop} {v : Value}
    (typed : schema.Typed known (.struct "TransactionV0Envelope") v) :
    Reading.Differs [.field 0, .field 0] (.leaf (.fixed key.bytes))
      (nodeWith ⟨schema, native⟩ new 0 "" v) t t' := by
  obtain ⟨d, hd, fields⟩ := exists_transaction
  obtain ⟨data, rest, more, length, -, -, rfl⟩ := exists_source typed hd fields
  refine .field (.field ?_)
  have name : Name.child (Name.child "" "tx") "sourceAccountEd25519" = longSource := by decide
  simp only [Reading.Differs, name, nodeWith, Functor.map, Reading.bind,
    leaf_ungiven h.short h.long, leaf_given h length]
  rfl

/-- Every field that an envelope can hold begins with an initial value. -/
theorem exists_initial {f : Field} (hf : f ∈ schema.fields) :
    ∃ v, schema.initial f.ty = .ok v ∧ schema.Shaped f.ty v :=
  Schema.exists_initial sound
    ((Definitions.declares_closed resolve_definitions).field f hf).supplies (not_endless f.ty)

/-- After the tag an envelope goes on with what the tag selects. -/
theorem armWith_envelope {u : ResolvedUnion} (hu : schema.union? typeName = some u)
    (old tag : Int32) (line : Nat) (arm : Option Value) :
    ((armWith ⟨schema, native⟩ new "" typeName u old tag line arm) t).value.tag? = some tag := by
  cases ha : u.arm? tag with
  | none => simp [armWith, ha, pure, Reading.pure, Value.tag?]
  | some field? =>
      cases field? with
      | none => simp [armWith, ha, pure, Reading.pure, Value.tag?]
      | some field =>
          obtain ⟨v, hv, -⟩ := exists_initial (Schema.mem_fields_of_union? hu ha)
          rw [armWith_some ha]
          cases if tag = old then arm else none with
          | none =>
              rw [heldWith, create_eq hv]
              exact TagType.discriminant?_leaf u.tagType tag
          | some w =>
              rw [heldWith]
              exact TagType.discriminant?_leaf u.tagType tag

/-- Where an envelope of the first kind is left, the rows of the source change its key and nothing
else. -/
theorem node_differs (h : t.Gives key t') {v : Value} (typed : schema.HasType ty v) (limit : Nat)
    (first : (node ⟨schema, native⟩ (limit + 1) 0 "" v t).value.tag? = some 0) :
    (node ⟨schema, native⟩ (limit + 1) 0 "" v).Differs sourcePath
      (.leaf (.fixed key.bytes)) t t' := by
  obtain ⟨u, hu, tag, inline, arms⟩ := exists_envelope
  obtain ⟨d, arm, rfl, held⟩ := Schema.Typed.exists_union hu typed
  have tagName : Name.child "" u.tag = "type" := by rw [tag]; decide
  have short : "type" ≠ shortSource := by decide
  have long : "type" ≠ longSource := by decide
  have line : Outcome.Leaves key (Reading.lineOf "type" t) (Reading.lineOf "type" t') :=
    ⟨by simp only [Reading.lineOf, Reading.look, h.others _ short long], h, rfl, rfl, rfl⟩
  rw [node_eq, nodeWith_union hu, tagName] at first ⊢
  have settled := line.rest.settle (r := ⟨schema, native⟩) short long u d
  refine .after line (.after settled ?_)
  -- the tag that is settled on is that of the first kind
  have selected : (settle ⟨schema, native⟩ u "type" d (Reading.lineOf "type" t).rest).value = 0 :=
    Option.some.inj ((armWith_envelope hu d _ _ arm).symm.trans first)
  generalize settle ⟨schema, native⟩ u "type" d (Reading.lineOf "type" t).rest =
    a at settled selected ⊢
  generalize settle ⟨schema, native⟩ u "type" d (Reading.lineOf "type" t').rest = a' at settled ⊢
  rw [selected, armWith_some arms, ResolvedUnion.armName, if_pos inline]
  have place {x : Reading Value}
      (inside : x.Differs [.field 0, .field 0] (.leaf (.fixed key.bytes)) a.rest a'.rest) :=
    inside.map (f := fun v => .union typeName (.leaf (u.tagType.leaf 0)) (some v)) (s := .arm)
      (fun _ => rfl) fun _ _ => rfl
  cases ha : if (0 : Int32) = d then arm else none with
  | none =>
      obtain ⟨v, hv, shaped⟩ := exists_initial (Schema.mem_fields_of_union? hu arms)
      rw [heldWith, create_eq hv, newer, node_eq]
      exact place (transaction_differs settled.rest shaped)
  | some v =>
      rw [heldWith]
      split at ha
      next same =>
        subst same
        exact place (transaction_differs settled.rest (held.of_value arms ha))
      next => cases ha

/-! ### Documents -/

theorem valueOf_settled {x : List Char} (h : Settled x) :
    Document.valueOf (" " ++ String.ofList x) = String.ofList (' ' :: x) := by
  have whole : (" " ++ String.ofList x).toList = ' ' :: x := by simp
  rw [Document.valueOf, whole, Document.dropReturn, if_neg h.noReturn]

/-- The row with the address gives the key. -/
theorem verdict_shortRow (key : Block 32) (line : Nat) (old : Leaf) :
    Reading.verdict shortSource sourceRule old ⟨line, Document.valueOf (shortRow key).2⟩ =
      (.fixed key.bytes, none, []) := by
  obtain ⟨v, entry, trimmed⟩ := (settled_key key).entry line
  have token : firstToken (Account.ed25519 key).text = (Account.ed25519 key).text :=
    firstToken_self fun c hc => (Account.mem_text hc).1.isBlank
  have parsed : Account.parse (firstToken v) = .ok (.ed25519 key) := by
    rw [firstToken_congr trimmed, token, Account.parse_text]
  rw [shortRow, valueOf_settled (settled_key key), Reading.verdict, entry]
  simp only [sourceRule, Rule.parsed, parsed]
  rfl

/-- The row with the bytes gives the key. -/
theorem verdict_longRow (key : Block 32) (line : Nat) (r : Reader) {data : Bytes}
    (length : data.length = 32) :
    Reading.verdict longSource (r.leafRule longSource) (.fixed data)
      ⟨line, Document.valueOf (longRow key).2⟩ = (.fixed key.bytes, none, []) := by
  obtain ⟨v, entry, trimmed⟩ := (Octets.settled_encode key.bytes).entry line
  have token : firstToken v = Hex.encode key.bytes := by
    rw [firstToken_congr trimmed]
    exact firstToken_self fun c hc => (Hex.graphic_encode _ c hc).1.isBlank
  have parsed : Octets.scanFixed data.length v = .ok key.bytes :=
    (length.trans key.length_bytes.symm) ▸ Octets.scanFixed_encode token
  rw [longRow, valueOf_settled (Octets.settled_encode key.bytes), Reading.verdict, entry]
  simp only [leafRule, Rule.choose, leafParser?, Option.map_some, Rule.parsed, parsed]
  rfl

/-- Rows of the source behind others give it the key. -/
theorem SourceRows.gives {entries : List (String × String)} (h : SourceRows key entries)
    (short : t.get? shortSource = none) (long : t.get? longSource = none) (n : Nat) :
    t.Gives key ((Document.rowsFrom n entries).foldl (fun t r => t.insert r.1 r.2) t) := by
  have ne : shortSource ≠ longSource := by decide
  refine ⟨short, long, fun m hs hl => NameMap.get?_foldl_of_notMem ?_, ?_⟩
  · cases h <;> simp [Document.rowsFrom, shortRow, longRow, hs, hl]
  · cases h with
    | short =>
        refine .inl ⟨⟨n, Document.valueOf (shortRow key).2⟩, ?_, verdict_shortRow key n⟩
        exact NameMap.get?_foldl_of_mem (by simp [Document.rowsFrom])
          (by simp [Document.rowsFrom, shortRow])
    | long =>
        refine .inr ⟨?_, ⟨n, Document.valueOf (longRow key).2⟩, ?_, fun r _ =>
          verdict_longRow key n r⟩
        · rw [NameMap.get?_foldl_of_notMem (by simp [Document.rowsFrom, longRow, ne]), short]
        · exact NameMap.get?_foldl_of_mem (by simp [Document.rowsFrom])
            (by simp [Document.rowsFrom, longRow])
    | shortLong =>
        refine .inl ⟨⟨n, Document.valueOf (shortRow key).2⟩, ?_, verdict_shortRow key n⟩
        exact NameMap.get?_foldl_of_mem (by simp [Document.rowsFrom, shortRow, ne])
          (by simp [Document.rowsFrom, shortRow])
    | longShort =>
        refine .inl ⟨⟨n + 1, Document.valueOf (shortRow key).2⟩, ?_, verdict_shortRow key (n + 1)⟩
        exact NameMap.get?_foldl_of_mem (by simp [Document.rowsFrom, shortRow, ne.symm])
          (by simp [Document.rowsFrom, shortRow])

/-- The envelope with a key in the place of the source. -/
def withSource (key : Block 32) (v : Value) : Value :=
  Value.replace (.leaf (.fixed key.bytes)) v sourcePath

/-- Without rows of the source in a document there are none in its table. -/
theorem get?_of_fresh {doc name : String} (fresh : ∀ row ∈ Document.rows doc, row.1 ≠ name) :
    (Document.table doc).get? name = none := by
  cases h : (Document.table doc).get? name with
  | none => rfl
  | some row => exact absurd rfl (fresh _ (Document.get?_table.mp h).1)

/-- Rows of the source change its key and nothing else. -/
theorem read_rows {old : Value} (h : schema.HasType ty old) {doc : String}
    (fresh : ∀ row ∈ Document.rows doc, row.1 ≠ shortSource ∧ row.1 ≠ longSource)
    (first : (schema.read native "" doc old).value.tag? = some 0) {entries : List (String × String)}
    (rows : SourceRows key entries) :
    schema.read native "" (Document.addRows doc entries) old =
      { schema.read native "" doc old with
        value := withSource key (schema.read native "" doc old).value } := by
  -- a depth that is enough for both documents
  obtain ⟨n, enough, enough'⟩ : ∃ n, schema.nestingLimit (Document.table doc) old ≤ n + 1 ∧
      schema.nestingLimit (Document.table (Document.addRows doc entries)) old ≤ n + 1 :=
    ⟨schema.nestingLimit (Document.table doc) old +
      schema.nestingLimit (Document.table (Document.addRows doc entries)) old, by omega, by omega⟩
  have read : schema.readWithin (n + 1) native "" doc old = schema.read native "" doc old :=
    read_deeper h enough
  rw [← read_deeper h enough', ← read]
  rw [← read] at first
  have gives : (Document.table doc).Gives key (Document.table (Document.addRows doc entries)) := by
    obtain ⟨line, table⟩ := Document.table_addRows doc rows.ofRows
    rw [table]
    exact rows.gives (get?_of_fresh fun row hr => (fresh row hr).1)
      (get?_of_fresh fun row hr => (fresh row hr).2) line
  have walk := node_differs gives h n first
  simp only [Reading.Differs] at walk
  simp only [Schema.readWithin, walk, Document.strayLines_addRows doc rows.ofRows]
  rfl

/-- A name within one field is not that of a line of fields that go by other words. -/
theorem notMem_fields {w : Writer} (named : w.schema.Named) (apart : w.schema.Apart)
    {name field n : String} {fs : List Field} {vs : List (String × Value)}
    (h : w.schema.TypedFields w.schema.Knows fs vs)
    (identifiers : ∀ f ∈ fs, Name.isIdentifier f.name)
    (distinct : (fs.map fun f => Name.shown f.name).Nodup)
    (other : Name.shown field ∉ fs.map fun f => Name.shown f.name)
    (within : Name.Within name field n) :
    n ∉ (w.fields name vs).lines.map Line.name := by
  intro hn
  obtain ⟨f, hf, within'⟩ :=
    (Writer.fields_tidy named apart vs name h identifiers distinct).mem n hn
  exact other (within.shown_eq within' ▸ List.mem_map_of_mem hf)

/-- An envelope of the first kind has a line with the address of its source under the short name,
and none under the long one. -/
theorem node_source (a : Annotator) (root : Value) {v : Value} (h : schema.HasType ty v)
    (first : v.tag? = some 0) (source : v.follow? sourcePath = some (.leaf (.fixed key.bytes))) :
    (Written.noted shortSource (String.ofList (Account.ed25519 key).text)
        (a.account (.ed25519 key))).lines ⊆ (Writer.node ⟨schema, a, root⟩ 0 "" v).lines ∧
      longSource ∉ (Writer.node ⟨schema, a, root⟩ 0 "" v).lines.map Line.name := by
  obtain ⟨u, hu, tag, inline, arms⟩ := exists_envelope
  obtain ⟨d, hd, fields⟩ := exists_transaction
  obtain ⟨x, rfl, known, typed⟩ := exists_first hu arms h first
  obtain ⟨data, rest, more, -, inside, signed, rfl⟩ := exists_source typed hd fields
  obtain rfl : data = key.bytes := by simpa [sourcePath, Value.follow?, Value.child?] using source
  -- the lines are those of the tag, of the source, of what stands behind it, and of the signatures
  have tx : Name.child "" "tx" = "tx" := by decide
  have name : Name.child "tx" "sourceAccountEd25519" = longSource := by decide
  have short : Name.sourceAlias? longSource = some shortSource := rfl
  rw [Writer.node_arm (w := ⟨schema, a, root⟩) hu arms, ResolvedUnion.armName, if_pos inline, tag]
  simp only [Writer.node, Writer.fields, tx, name, Writer.leaf_of_bareSource short, Writer.account,
    Written.lines_append, List.map_append, List.mem_append, not_or]
  have apartFields := apart.fields d (Schema.mem_of_struct? hd)
  rw [fields, List.map_cons, List.nodup_cons] at apartFields
  refine ⟨fun l hl => ?_, ?_, ⟨?_, ?_⟩, ?_⟩
  · exact List.mem_append_right _ (List.mem_append_left _ (List.mem_append_left _ hl))
  · rw [Writer.tag_names known]
    decide
  · simp only [Written.noted, Written.lines_line, List.map_singleton]
    decide
  · refine notMem_fields named apart inside (fun f hf => ?_) apartFields.2 apartFields.1
      ⟨"sourceAccountEd25519", by decide, rfl, name ▸ .refl _⟩
    exact named.field f (Schema.mem_fields_of_struct? hd (List.mem_of_mem_tail hf))
  · have within : Name.Within "" "tx" longSource :=
      ⟨"tx", by decide, rfl, tx ▸ name ▸ Name.below_child _ _⟩
    exact notMem_fields named apart signed (by decide) (by decide) (by decide) within

/-- An envelope of the first kind stays one with the key in it, and the key is where the path
leads. -/
theorem follow?_withSource {v : Value} (h : schema.HasType ty v) (first : v.tag? = some 0) :
    (withSource key v).tag? = some 0 ∧
      (withSource key v).follow? sourcePath = some (.leaf (.fixed key.bytes)) := by
  obtain ⟨u, hu, -, -, arms⟩ := exists_envelope
  obtain ⟨d, hd, fields⟩ := exists_transaction
  obtain ⟨x, rfl, -, typed⟩ := exists_first hu arms h first
  obtain ⟨data, rest, more, -, -, -, rfl⟩ := exists_source typed hd fields
  exact ⟨TagType.discriminant?_leaf u.tagType 0, rfl⟩

/-- Where a document without a row for the source leaves an envelope of the first kind, each form of
the source at its end gives that envelope with the key, the same faults and the same requests.  The
envelope is written with the address under the short name, and with nothing under the long one. -/
theorem read_source {old : Value} (h : schema.HasType ty old) {native doc : String}
    (fresh : ∀ row ∈ Document.rows doc, row.1 ≠ shortSource ∧ row.1 ≠ longSource) {d : Decoded}
    (hd : schema.read native "" doc old = d) (first : d.value.tag? = some 0) (key : Block 32) :
    (∀ rows, SourceRows key rows →
      schema.read native "" (Document.addRows doc rows) old =
        { d with value := withSource key d.value }) ∧
    (withSource key d.value).follow? sourcePath = some (.leaf (.fixed key.bytes)) ∧
    ∀ a : Annotator, (schema.write a "" (withSource key d.value)).faults = [] ∧
      (Written.noted shortSource (String.ofList (Account.ed25519 key).text)
        (a.account (.ed25519 key))).lines ⊆ (schema.write a "" (withSource key d.value)).lines ∧
      longSource ∉ (schema.write a "" (withSource key d.value)).lines.map Line.name := by
  subst hd
  have typed : schema.HasType ty (withSource key (schema.read native "" doc old).value) := by
    have read : schema.HasType ty
        (schema.read native "" (Document.addRows doc [shortRow key]) old).value := read_hasType h
    rwa [read_rows h fresh first .short] at read
  obtain ⟨tag, source⟩ : (withSource key _).tag? = some 0 ∧ _ :=
    follow?_withSource (read_hasType h) first
  refine ⟨fun rows forms => read_rows h fresh first forms, source, fun a => ?_⟩
  exact ⟨Schema.write_faults typed bareSources, node_source a _ typed tag source⟩

/-- A key of equal bytes. -/
def sevens : Block 32 :=
  ⟨List.replicate 32 7, by decide⟩

/-- The address of the key and a legacy row that cannot be read, behind a fee that cannot be read
and a line without a colon. -/
theorem read_source_legacy :
    schema.HasType ty initial ∧
      (∀ row ∈ Document.rows "tx.fee: 1x\nmemo", row.1 ≠ shortSource ∧ row.1 ≠ longSource) ∧
      (schema.read "native" "" "tx.fee: 1x\nmemo" initial).value.tag? = some 0 ∧
      SourceRows sevens [shortRow sevens, (longSource, " 7?")] ∧
      schema.read "native" ""
          (Document.addRows "tx.fee: 1x\nmemo" [shortRow sevens, (longSource, " 7?")]) initial =
        { schema.read "native" "" "tx.fee: 1x\nmemo" initial with
          value := withSource sevens
            (schema.read "native" "" "tx.fee: 1x\nmemo" initial).value } := by
  have fresh : ∀ row ∈ Document.rows "tx.fee: 1x\nmemo", row.1 ≠ shortSource ∧
      row.1 ≠ longSource := by
    decide +kernel
  have first : (schema.read "native" "" "tx.fee: 1x\nmemo" initial).value.tag? = some 0 := by
    decide +kernel
  have forms : SourceRows sevens [shortRow sevens, (longSource, " 7?")] := .shortLong (by decide)
  exact ⟨initial_hasType, fresh, first, forms,
    (read_source initial_hasType fresh rfl first sevens).1 _ forms⟩

end Envelope
end XdrText
