import XdrText.Proofs.Distinct
import XdrText.Proofs.RoundTrip

/-!
# XdrText — documents of envelopes

**Round trip** (`Envelope.read_write_plain`).  The names in the schema of envelopes are identifiers
and its types leave every line a name of its own, so that an envelope with legible assets is read
back from its document.

**Documents read again** (`Envelope.reread_iff`).  A document can leave an asset that is not
legible, as an escaped zero is a byte of a code like any other.  An envelope that a document leaves
is read back if and only if its assets are legible.

**Notes** (`Envelope.read_noted`).  Notes that stay on their lines are commentary, and so are lists
of symbols: an envelope is read from the document with notes as from the one without.  A note that
goes on to another line can be read as a field (`Envelope.read_forged`).
-/

namespace XdrText.Envelope

theorem identified : schema.Identified := by
  decide +kernel

/-- The names of the fields and of the tags are identifiers. -/
theorem named : schema.Named :=
  ⟨identified.field, identified.tag⟩

theorem apart : schema.Apart := by
  decide

/-- The lines of an envelope have names of their own. -/
theorem names_nodup (a : Annotator) {v : Value} (h : schema.HasType ty v) :
    ((schema.write a "" v).lines.map Line.name).Nodup :=
  (Writer.node_tidy (w := ⟨schema, a, v⟩) named apart v 0 "" h).nodup

/-- Reading the document of an envelope leaves it if and only if its assets are legible. -/
theorem read_text {a : Annotator} (tame : a.Tame) {old v : Value} (hold : schema.HasType ty old)
    (h : schema.HasType ty v) :
    (v.Legible → schema.read a.native "" (schema.write a "" v).text old = ⟨v, [], [], true⟩) ∧
      ((schema.read a.native "" (schema.write a "" v).text old).value = v →
        (schema.read a.native "" (schema.write a "" v).text old).faults = [] → v.Legible) :=
  Schema.read_text ⟨sound, identified, tame⟩ (by decide) h hold (Value.founded not_endless v)
    bareSources (names_nodup a h)

/-- Whatever the document, what it leaves of an envelope is an envelope. -/
theorem read_hasType {native doc : String} {old : Value} (h : schema.HasType ty old) :
    schema.HasType ty (schema.read native "" doc old).value :=
  Schema.readWithin_typed sound symbolic _ native doc h bareSources

/-- An envelope with legible assets is written without a fault on lines with names of their own, and
reading them leaves the envelope, whatever envelope was there before. -/
theorem read_write_plain (zone : Form.Zone) {old v : Value} (hold : schema.HasType ty old)
    (h : schema.HasType ty v) (legible : v.Legible) :
    (schema.write (.plain zone) "" v).faults = [] ∧
      ((schema.write (.plain zone) "" v).lines.map Line.name).Nodup ∧
      schema.read (Annotator.plain zone).native "" (schema.write (.plain zone) "" v).text old =
        ⟨v, [], [], true⟩ :=
  ⟨Schema.write_faults h bareSources, names_nodup (.plain zone) h,
    (read_text (Annotator.plain_tame zone) hold h).1 legible⟩

/-- A transaction of the second kind with one payment, in which all else is new. -/
def payment : Decoded :=
  schema.read Annotator.plain.native ""
    "type: ENVELOPE_TYPE_TX\ntx.operations.len: 1\ntx.operations[0].body.type: PAYMENT\n" initial

theorem payment_hasType : schema.HasType ty payment.value :=
  read_hasType initial_hasType

theorem payment_legible : payment.value.Legible := by
  decide +kernel

/-- A new envelope, which is of the first kind, becomes the payment. -/
theorem read_write_payment :
    schema.HasType ty initial ∧ schema.HasType ty payment.value ∧ payment.value.Legible ∧
      (schema.write .plain "" payment.value).faults = [] ∧
      ((schema.write .plain "" payment.value).lines.map Line.name).Nodup ∧
      schema.read Annotator.plain.native "" (schema.write .plain "" payment.value).text initial =
        ⟨payment.value, [], [], true⟩ := by
  exact ⟨initial_hasType, payment_hasType, payment_legible,
    read_write_plain .utc initial_hasType payment_hasType payment_legible⟩

/-! ### Documents read again -/

/-- An envelope read into a new one from its document. -/
def reread (v : Value) (zone : Form.Zone := .utc) : Decoded :=
  schema.read (Annotator.plain zone).native "" (schema.write (.plain zone) "" v).text initial

/-- What a document leaves is written without a fault, and reading that into a new envelope leaves
the same without a fault if and only if its assets are legible. -/
theorem reread_iff (zone : Form.Zone) {old : Value} (hold : schema.HasType ty old) (doc : String)
    {d : Decoded} (hd : schema.read (Annotator.plain zone).native "" doc old = d) :
    (schema.write (.plain zone) "" d.value).faults = [] ∧
      ((reread d.value zone).value = d.value ∧ (reread d.value zone).faults = [] ↔
        d.value.Legible) := by
  have typed : schema.HasType ty d.value := hd ▸ read_hasType hold
  obtain ⟨exact, only⟩ := read_text (Annotator.plain_tame zone) initial_hasType typed
  refine ⟨Schema.write_faults typed bareSources, fun h => only h.1 h.2, fun legible => ?_⟩
  have same : reread d.value zone = ⟨d.value, [], [], true⟩ := exact legible
  exact ⟨by rw [same], by rw [same]⟩

theorem reread_payment :
    schema.HasType ty initial ∧ (schema.write .plain "" payment.value).faults = [] ∧
      ((reread payment.value).value = payment.value ∧ (reread payment.value).faults = [] ↔
        payment.value.Legible) :=
  ⟨initial_hasType, reread_iff .utc initial_hasType _ rfl⟩

/-- A payment in an asset with a code of one zero. -/
def blankPayment : Decoded :=
  schema.read Annotator.plain.native ""
    ("tx.operations.len: 1\ntx.operations[0].body.type: PAYMENT\n" ++
      "tx.operations[0].body.paymentOp.asset: \\x00:" ++
        "GAAAAAAAAAAAAAAAAAAAAAAAAAAAAAAAAAAAAAAAAAAAAAAAAAAAAWHF\n") initial

/-- The code is read, but it is written as nothing, and an asset without a code is not read. -/
theorem reread_blankPayment :
    schema.HasType ty initial ∧ blankPayment.faults = [] ∧
      ¬ ((reread blankPayment.value).value = blankPayment.value ∧
        (reread blankPayment.value).faults = []) := by
  have blank : blankPayment.faults = [] ∧ ¬ blankPayment.value.Legible := by decide +kernel
  exact ⟨initial_hasType, blank.1, fun h => blank.2 ((read_text (Annotator.plain_tame .utc)
    initial_hasType (read_hasType initial_hasType)).2 h.1 h.2)⟩

/-! ### Notes -/

/-- Notes of one line, and the word of the native asset that is not another one's text. -/
theorem tame_of_notes {a : Annotator} (native : a.native = Annotator.defaultNative)
    (account : ∀ x, '\n' ∉ (a.account x).toList)
    (signature : ∀ root g, '\n' ∉ (a.signature root g).toList)
    (signer : ∀ x, '\n' ∉ (a.signer x).toList) : a.Tame where
  account := account
  signature := signature
  signer := signer
  native_blank := native ▸ (Annotator.plain_tame a.zone).native_blank
  native_mark := native ▸ (Annotator.plain_tame a.zone).native_mark
  native_text := native ▸ (Annotator.plain_tame a.zone).native_text

/-- Where no note has a line feed, an envelope with legible assets is read from the document with
notes and lists of symbols as from the one without, and no line of it is at fault. -/
theorem read_noted {a : Annotator} (native : a.native = Annotator.defaultNative)
    (account : ∀ x, '\n' ∉ (a.account x).toList)
    (signature : ∀ root g, '\n' ∉ (a.signature root g).toList)
    (signer : ∀ x, '\n' ∉ (a.signer x).toList) (zone : Form.Zone) {old v : Value}
    (hold : schema.HasType ty old) (h : schema.HasType ty v) (legible : v.Legible) :
    schema.read a.native "" (schema.write a "" v).text old =
        schema.read (Annotator.plain zone).native "" (schema.write (.plain zone) "" v).text old ∧
      (schema.read a.native "" (schema.write a "" v).text old).faults = [] := by
  have noted := (read_text (tame_of_notes native account signature signer) hold h).1 legible
  have plain := (read_text (Annotator.plain_tame zone) hold h).1 legible
  exact ⟨noted.trans plain.symm, by rw [noted]⟩

/-- Remarks with a colon, a quotation mark and a question mark, and all symbols of each enum. -/
def remarks : Annotator where
  account _ := "who: \"me\"?"
  signature _ _ := "by: me?"
  signer _ := "?"
  wantsHelp _ := true
  native := Annotator.defaultNative

theorem read_noted_payment :
    remarks.native = Annotator.defaultNative ∧ schema.HasType ty initial ∧
      schema.HasType ty payment.value ∧ payment.value.Legible ∧
      schema.read remarks.native "" (schema.write remarks "" payment.value).text initial =
        schema.read Annotator.plain.native "" (schema.write .plain "" payment.value).text initial ∧
      (schema.read remarks.native "" (schema.write remarks "" payment.value).text
        initial).faults = [] := by
  exact ⟨rfl, initial_hasType, payment_hasType, payment_legible,
    read_noted rfl (fun _ => by simp [remarks]) (fun _ _ => by simp [remarks])
      (fun _ => by simp [remarks]) .utc initial_hasType payment_hasType payment_legible⟩

/-- The note behind an account closes its parenthesis and goes on with a field. -/
def forger : Annotator :=
  { Annotator.plain .utc with account _ := "x)\ntype: ENVELOPE_TYPE_TX (y" }

/-- A new envelope, read from the document with the note. -/
def forged : Decoded :=
  schema.read forger.native "" (schema.write forger "" initial).text initial

/-- It is read as an envelope of another kind, and no line is at fault. -/
theorem read_forged :
    forger.native = Annotator.defaultNative ∧ schema.HasType ty initial ∧ initial.Legible ∧
      forged.faults = [] ∧
      forged.value ≠
        (schema.read Annotator.plain.native ""
          (schema.write .plain "" initial).text initial).value := by
  have read : initial.Legible ∧ forged.faults = [] ∧ forged.value ≠ initial := by decide +kernel
  refine ⟨rfl, initial_hasType, read.1, read.2.1, ?_⟩
  rw [(read_text (Annotator.plain_tame .utc) initial_hasType initial_hasType).1 read.1]
  exact read.2.2

end XdrText.Envelope
