import XdrText.Proofs.Canonical

/-!
# XdrText — accounts, signers and assets by their texts

An account and a signer are a version of key text with a payload, which is what their text gives
back (`Key.Account.decode_text`, `Key.Signer.decode_text`).  Reading keeps all of the payload: the
number of a multiplexed account is told by its eight bytes (`Bytes.ofNat_toNat`), and nothing is
left behind them.  So what is read of a text has this text (`Key.Account.text_of_parse`,
`Key.Signer.text_of_parse`).

**Typed keys** (`Key.parse_iff_text`).  Accounts and signers are read from their own texts and from
no others.  A text is that of both exactly when it is the text of an Ed25519 account.

**Assets** (`Key.Asset.parse_own_text`).  An asset is read back from its text unless its code of
four bytes is all zero, or its code of twelve bytes has nothing but zeros behind the first four.
-/

namespace XdrText

namespace Bytes

/-- A number of so many bytes is below that power of 256. -/
theorem toNat_lt (b : Bytes) : toNat b < 256 ^ b.length := by
  induction b using List.reverseRecOn with
  | nil => decide
  | append_singleton b x ih =>
      have digit := x.toNat_lt
      rw [toNat_append, List.length_append, List.length_singleton, Nat.pow_succ]
      omega

/-- Bytes are the digits of the number that they spell. -/
theorem ofNat_toNat (b : Bytes) : ofNat b.length (toNat b) = b := by
  induction b using List.reverseRecOn with
  | nil => rfl
  | append_singleton b x ih =>
      have digit := x.toNat_lt
      have quotient : (256 * toNat b + x.toNat) / 256 = toNat b := by omega
      have last : UInt8.ofNat (256 * toNat b + x.toNat) = x := by
        refine UInt8.toNat_inj.mp ?_
        rw [UInt8.toNat_ofNat']
        omega
      rw [List.length_append, List.length_singleton, toNat_append, ofNat, quotient, last, ih]

end Bytes

namespace Key

/-! ### Accounts -/

namespace Account

/-- Forty bytes are the payload of the account that they are read as. -/
theorem ofMuxed_eq {bytes : Bytes} (h : bytes.length = 40) :
    ∃ a, ofMuxed bytes = .ok a ∧ a.version = .muxed ∧ a.payload = bytes := by
  have key : (bytes.take 32).length = 32 := by
    rw [List.length_take]
    omega
  have id : (bytes.drop 32).length = 8 := by
    rw [List.length_drop]
    omega
  refine ⟨.muxed (UInt64.ofNat (Bytes.toNat (bytes.drop 32))) ⟨bytes.take 32, key⟩, ?_, rfl, ?_⟩
  · have cut := Bytes.split?_eq (n := 32) (b := bytes) (by omega)
    simp only [ofMuxed, cut, block32_eq key, Bytes.split?_self id]
  · have bound := Bytes.toNat_lt (bytes.drop 32)
    have digits := Bytes.ofNat_toNat (bytes.drop 32)
    rw [id] at bound digits
    rw [payload, UInt64.toNat_ofNat_of_lt' bound, digits, List.take_append_drop]

/-- What is read of a text is read of all of it. -/
theorem decode_of_parse {s : List Char} {a : Account} (h : parse s = .ok a) :
    StrKey.decode s = .ok (a.version, a.payload) := by
  rw [parse] at h
  cases decoded : StrKey.decode s with
  | error => rw [decoded] at h; cases h
  | ok p =>
      obtain ⟨version, bytes⟩ := p
      have length := (StrKey.encode_of_decode decoded).1
      rw [decoded] at h
      cases version with
      | account =>
          simp only [block32_eq length] at h
          cases h
          rfl
      | muxed =>
          obtain ⟨b, read, muxed, whole⟩ := ofMuxed_eq length
          obtain rfl : b = a := Except.ok.inj (read.symm.trans h)
          rw [muxed, whole]
      | seed | preAuth | hashX => cases h

/-- An account is read from its own text only. -/
theorem text_of_parse {s : List Char} {a : Account} (h : parse s = .ok a) : a.text = s := by
  rw [text_eq]
  exact (StrKey.encode_of_decode (decode_of_parse h)).2

end Account

/-! ### Signers -/

namespace Signer

theorem text_of_parse {s : List Char} {g : Signer} (h : parse s = .ok g) : g.text = s := by
  rw [parse] at h
  cases decoded : StrKey.decode s with
  | error => rw [decoded] at h; cases h
  | ok p =>
      obtain ⟨version, bytes⟩ := p
      obtain ⟨length, shown⟩ := StrKey.encode_of_decode decoded
      rw [decoded] at h
      cases version with
      | account | preAuth | hashX =>
          simp only [SignerKind.ofVersion?, block32_eq length] at h
          cases h
          exact shown
      | muxed | seed => cases h

end Signer

/-! ### Accounts and signers of one text -/

/-- An account and a signer have one text when they are the same Ed25519 key. -/
theorem text_eq_text_iff {a : Account} {g : Signer} :
    a.text = g.text ↔ ∃ key, a = .ed25519 key ∧ g = ⟨.ed25519, key⟩ := by
  constructor
  · intro same
    have decoded := a.decode_text
    rw [same, g.decode_text] at decoded
    simp only [Except.ok.injEq, Prod.mk.injEq] at decoded
    obtain ⟨version, bytes⟩ := decoded
    obtain ⟨kind, key⟩ := g
    cases a with
    | ed25519 first =>
        -- of the three kinds of signers only this one has the version of an account
        cases kind with
        | ed25519 =>
            obtain rfl : key = first := Block.ext bytes
            exact ⟨key, rfl, rfl⟩
        | preAuth | hashX => cases version
    | muxed => cases kind <;> cases version
  · rintro ⟨key, rfl, rfl⟩
    rfl

/-- Accounts and signers are read from exactly their own texts.  A text is read as both exactly when
it is that of an Ed25519 account, and then the two hold its key. -/
theorem parse_iff_text (s : List Char) :
    (∀ a, Account.parse s = .ok a ↔ a.text = s) ∧ (∀ g, Signer.parse s = .ok g ↔ g.text = s) ∧
      ((∃ a g, Account.parse s = .ok a ∧ Signer.parse s = .ok g) ↔
        ∃ key, (Account.ed25519 key).text = s) ∧
      ∀ a g, Account.parse s = .ok a ∧ Signer.parse s = .ok g ↔
        ∃ key, (Account.ed25519 key).text = s ∧ a = .ed25519 key ∧ g = ⟨.ed25519, key⟩ := by
  have account : ∀ a, Account.parse s = .ok a ↔ a.text = s :=
    fun a => ⟨Account.text_of_parse, fun h => h ▸ a.parse_text⟩
  have signer : ∀ g, Signer.parse s = .ok g ↔ g.text = s :=
    fun g => ⟨Signer.text_of_parse, fun h => h ▸ g.parse_text⟩
  have both : ∀ a g, Account.parse s = .ok a ∧ Signer.parse s = .ok g ↔
      ∃ key, (Account.ed25519 key).text = s ∧ a = .ed25519 key ∧ g = ⟨.ed25519, key⟩ := by
    intro a g
    rw [account, signer]
    constructor
    · rintro ⟨rfl, same⟩
      obtain ⟨key, rfl, rfl⟩ := text_eq_text_iff.mp same.symm
      exact ⟨key, rfl, rfl, rfl⟩
    · rintro ⟨key, shown, rfl, rfl⟩
      exact ⟨shown, shown⟩
  refine ⟨account, signer, ⟨?_, ?_⟩, both⟩
  · rintro ⟨a, g, read⟩
    obtain ⟨key, shown, -⟩ := (both a g).mp read
    exact ⟨key, shown⟩
  · rintro ⟨key, shown⟩
    exact ⟨_, _, (both _ _).mpr ⟨key, shown, rfl, rfl⟩⟩

/-! ### Assets -/

namespace Asset

/-- An asset is read back from its text exactly when it is native, has a code of four bytes that are
not all zero, or one of twelve bytes of which the last eight are not all zero.  Otherwise it is read
as the short form of its code, or refused where it has none. -/
theorem parse_own_text (a : Asset) :
    (parse a.text = .ok a ↔
      a = .native ∨ (∃ code issuer, a = .alphaNum4 code issuer ∧ ∃ x ∈ code.bytes, x ≠ 0) ∨
        ∃ code issuer, a = .alphaNum12 code issuer ∧ ∃ x ∈ code.bytes.drop 4, x ≠ 0) ∧
      parse a.text = a.reread?.elim (.error (.badAsset (String.ofList a.text))) .ok := by
  refine ⟨a.parse_text_iff.trans ?_, a.parse_text⟩
  cases a <;> simp [Legible]

/-- A short code in twelve bytes is read back in four. -/
example : reread? (.alphaNum12 ⟨[0x41, 0x42, 0, 0, 0, 0, 0, 0, 0, 0, 0, 0], rfl⟩ (Block.zero 32)) =
    some (.alphaNum4 ⟨[0x41, 0x42, 0, 0], rfl⟩ (Block.zero 32)) := by
  decide

end Asset

end Key

end XdrText
