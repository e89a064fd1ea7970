import XdrText.Key.Asset
import XdrText.Key.Signer
import XdrText.Proofs.Bits
import XdrText.Proofs.Form

/-!
# XdrText — keys that are read as they were written

The text of a key gives back its version and its payload (`Key.StrKey.decode_encode`), so accounts
and signers are read back from their texts.  The text of an asset does not tell the length of the
code: it is read as the short form where that has the same text (`Key.Asset.parse_text`).  So an
asset is read back exactly when its code is legible: a code of four bytes is not all zero, and one
of twelve does not fit in four (`Key.Asset.parse_text_iff`).
-/

namespace XdrText

namespace Bytes

@[simp] theorem length_ofNat : ∀ {k n : Nat}, (ofNat k n).length = k
  | 0, _ => rfl
  | k + 1, n => by rw [ofNat, List.length_append, length_ofNat]; rfl

/-- One more byte at the end is the last digit of the number in base 256. -/
theorem toNat_append (a : Bytes) (x : UInt8) : toNat (a ++ [x]) = 256 * toNat a + x.toNat := by
  simp [toNat, List.foldl_append]

/-- The digits of a number spell it. -/
theorem toNat_ofNat : ∀ {k n : Nat}, n < 256 ^ k → toNat (ofNat k n) = n
  | 0, n, h => by rw [Nat.pow_zero, Nat.lt_one_iff] at h; rw [h]; rfl
  | k + 1, n, h => by
      have quotient : n / 256 < 256 ^ k := by
        rw [Nat.pow_succ] at h
        exact Nat.div_lt_of_lt_mul (by rwa [Nat.mul_comm])
      have digit : (UInt8.ofNat n).toNat = n % 256 := rfl
      rw [ofNat, toNat_append, toNat_ofNat quotient, digit]
      exact Nat.div_add_mod n 256

theorem split?_eq {n : Nat} {b : Bytes} (h : n ≤ b.length) :
    b.split? n = some (b.take n, b.drop n) :=
  if_pos h

/-- What is put together is cut at the seam. -/
theorem split?_append {n : Nat} {a b : Bytes} (h : a.length = n) :
    split? n (a ++ b) = some (a, b) := by
  subst h
  simp [split?]

theorem split?_self {n : Nat} {b : Bytes} (h : b.length = n) : b.split? n = some (b, []) := by
  have whole := split?_append (b := []) h
  rwa [List.append_nil] at whole

end Bytes

namespace Block

theorem ofBytes?_eq {n : Nat} {b : Bytes} (h : b.length = n) : ofBytes? n b = some ⟨b, h⟩ :=
  dif_pos h

/-- A block is made of its own bytes. -/
theorem ofBytes?_bytes {n : Nat} (b : Block n) : ofBytes? n b.bytes = some b :=
  ofBytes?_eq b.length_bytes

/-- The first `n` bytes of a block. -/
def take {m : Nat} (b : Block m) (n : Nat) (h : n ≤ m) : Block n :=
  ⟨b.bytes.take n, by rw [List.length_take, b.length_bytes, Nat.min_eq_left h]⟩

theorem take_self {n : Nat} (b : Block n) : b.take n (Nat.le_refl n) = b := by
  have whole : b.bytes.take n = b.bytes := List.take_of_length_le (Nat.le_of_eq b.length_bytes)
  exact Block.ext whole

theorem drop_self {n : Nat} (b : Block n) : b.bytes.drop n = [] :=
  List.drop_of_length_le (Nat.le_of_eq b.length_bytes)

end Block

namespace Key

open Text Form

/-! ### Base 32 -/

namespace Base32

/-- Each digit is read as its number. -/
theorem value?_digit : ∀ n < 32, value? (digit n) = some n := by decide

/-- Groups of five bits spell numbers below 32, and these spell the bits with zeros behind them. -/
theorem quintets_spec : ∀ bits : List Bool, (∀ n ∈ quintets bits, n < 32) ∧
    ∃ k < 5, (quintets bits).flatMap (bitsOf 5) = bits ++ List.replicate k false
  | [] => ⟨by simp [quintets], 0, by simp [quintets]⟩
  | [a] => by revert a; decide
  | [a, b] => by revert a b; decide
  | [a, b, c] => by revert a b c; decide
  | [a, b, c, d] => by revert a b c d; decide
  | a :: b :: c :: d :: e :: rest => by
      obtain ⟨below, k, hk, spelt⟩ := quintets_spec rest
      have hlt : ofBits [a, b, c, d, e] < 2 ^ 5 := ofBits_lt [a, b, c, d, e]
      have hbits : bitsOf 5 (ofBits [a, b, c, d, e]) = [a, b, c, d, e] :=
        bitsOf_ofBits [a, b, c, d, e]
      refine ⟨List.forall_mem_cons.mpr ⟨hlt, below⟩, k, hk, ?_⟩
      rw [quintets, List.flatMap_cons, hbits, spelt]
      rfl

/-- Bits of bytes are gathered into the bytes again, and fewer than eight of them are left over. -/
theorem octets_bits (short : List Bool) (h : short.length < 8) :
    ∀ b : Bytes, octets (b.bits ++ short) = (b, short)
  | [] => by
      match short, h with
      | [], _ | [_], _ | [_, _], _ | [_, _, _], _ | [_, _, _, _], _ | [_, _, _, _, _], _
      | [_, _, _, _, _, _], _ | [_, _, _, _, _, _, _], _ => rfl
  | x :: b => by
      have byte := ofBits_byte x
      rw [Bytes.bits_cons, List.append_assoc]
      simp only [bitsOf, List.cons_append, List.nil_append, octets, octets_bits short h b] at byte ⊢
      rw [byte]

/-- The digits of a text are read as the numbers that they were written for. -/
theorem mapM_value? {ns : List Nat} (h : ∀ n ∈ ns, n < 32) :
    (ns.map digit).mapM value? = some ns := by
  induction ns with
  | nil => rfl
  | cons n ns ih =>
      rw [List.map_cons, List.mapM_cons, value?_digit n (h n List.mem_cons_self),
        ih fun m hm => h m (List.mem_cons_of_mem _ hm)]
      rfl

/-- Bytes are read back from their Base32, in which the bits that fill up the last digit are
zero. -/
theorem decode?_encode (b : Bytes) : decode? (encode b) = some b := by
  obtain ⟨below, k, hk, spelt⟩ := quintets_spec b.bits
  have octets := octets_bits (List.replicate k false) (by rw [List.length_replicate]; omega) b
  simp [decode?, encode, mapM_value? below, spelt, octets, hk]

/-- The characters of the alphabet need no escape. -/
theorem mem_encode {b : Bytes} {c : Char} (h : c ∈ encode b) : Graphic c ∧ c ≠ '?' ∧ c ≠ ':' := by
  have letters : ∀ c ∈ alphabet, Graphic c ∧ c ≠ '?' ∧ c ≠ ':' := forall_of_all (by decide)
  obtain ⟨n, -, rfl⟩ := List.mem_map.mp h
  rw [digit, List.getD_eq_getElem?_getD]
  cases hn : alphabet[n]? with
  | none => decide
  | some c => exact letters c (List.mem_of_getElem? hn)

end Base32

/-! ### Keys -/

namespace StrKey

/-- A version is told by its byte. -/
theorem ofByte?_byte (v : Version) : Version.ofByte? v.byte = some v := by
  cases v <;> decide

/-- The text of a key gives back its version and its payload. -/
theorem decode_encode {v : Version} {payload : Bytes} (h : payload.length = v.payloadLength) :
    decode (encode v payload) = .ok (v, payload) := by
  have pos : 0 < v.payloadLength := by cases v <;> decide
  -- the version, the payload and two bytes of checksum
  have trailer : (Checksum.trailer (v.byte :: payload)).length = 2 := rfl
  have length : (v.byte :: payload ++ Checksum.trailer (v.byte :: payload)).length =
      payload.length + 3 := by
    rw [List.length_append, trailer]
    rfl
  have split : Bytes.split? ((v.byte :: payload ++ Checksum.trailer (v.byte :: payload)).length - 2)
      (v.byte :: payload ++ Checksum.trailer (v.byte :: payload)) =
        some (v.byte :: payload, Checksum.trailer (v.byte :: payload)) :=
    Bytes.split?_append (by rw [length]; rfl)
  simp only [decode, encode, Base32.decode?_encode]
  rw [if_neg (by rw [length]; omega), split]
  simp [ofByte?_byte, h]

/-- Key text is graphic, and has neither a question mark nor a colon. -/
theorem mem_encode {v : Version} {payload : Bytes} {c : Char} (h : c ∈ encode v payload) :
    Graphic c ∧ c ≠ '?' ∧ c ≠ ':' :=
  Base32.mem_encode h

/-- Key text is not empty: there is always a checksum in it. -/
theorem encode_ne_nil (v : Version) (payload : Bytes) : encode v payload ≠ [] := by
  intro h
  have decoded := Base32.decode?_encode (v.byte :: payload ++ Checksum.trailer (v.byte :: payload))
  rw [show Base32.encode _ = [] from h] at decoded
  cases decoded

end StrKey

theorem block32_eq {payload : Bytes} (h : payload.length = 32) :
    block32 payload = .ok ⟨payload, h⟩ := by
  rw [block32, Block.ofBytes?_eq h]

/-- The bytes of a key are read as the key. -/
theorem block32_bytes (b : Block 32) : block32 b.bytes = .ok b :=
  block32_eq b.length_bytes

namespace Account

/-- The version under which an account is written. -/
def version : Account → StrKey.Version
  | .ed25519 _ => .account
  | .muxed .. => .muxed

/-- The bytes that are written of an account. -/
def payload : Account → Bytes
  | .ed25519 key => key.bytes
  | .muxed id key => key.bytes ++ Bytes.ofNat 8 id.toNat

/-- The text of an account is key text for its version and its payload. -/
theorem text_eq (a : Account) : a.text = StrKey.encode a.version a.payload := by
  cases a <;> rfl

/-- A multiplexed account has forty bytes of payload, and another one has 32. -/
theorem length_payload : ∀ a : Account, a.payload.length = a.version.payloadLength
  | .ed25519 key => key.length_bytes
  | .muxed id key => by
      rw [payload, List.length_append, key.length_bytes, Bytes.length_ofNat]
      rfl

/-- The text of an account is decoded to its version and its payload. -/
theorem decode_text (a : Account) : StrKey.decode a.text = .ok (a.version, a.payload) := by
  rw [text_eq, StrKey.decode_encode a.length_payload]

/-- Each account is read back from its text. -/
theorem parse_text (a : Account) : parse a.text = .ok a := by
  rw [parse, decode_text]
  cases a with
  | ed25519 key =>
      simp only [version, payload, block32_bytes]
      rfl
  | muxed id key =>
      simp only [version, payload, ofMuxed, Bytes.split?_append key.length_bytes, block32_bytes,
        Bytes.split?_self Bytes.length_ofNat, Bytes.toNat_ofNat (k := 8) id.toNat_lt,
        UInt64.ofNat_toNat]

/-- The text of an account is one token without a question mark. -/
theorem mem_text {a : Account} {c : Char} (h : c ∈ a.text) : Graphic c ∧ c ≠ '?' := by
  cases a with
  | ed25519 => exact (StrKey.mem_encode h).imp id And.left
  | muxed => exact (StrKey.mem_encode h).imp id And.left

theorem text_ne_nil (a : Account) : a.text ≠ [] := by
  cases a <;> exact StrKey.encode_ne_nil _ _

end Account

namespace Signer

/-- The text of a signer is decoded to its version and its key. -/
theorem decode_text (s : Signer) : StrKey.decode s.text = .ok (s.kind.version, s.key.bytes) := by
  refine StrKey.decode_encode ?_
  rw [s.key.length_bytes]
  cases s.kind <;> rfl

/-- Each signer is read back from its text. -/
theorem parse_text (s : Signer) : parse s.text = .ok s := by
  have kind : SignerKind.ofVersion? s.kind.version = some s.kind := by cases s.kind <;> rfl
  rw [parse, decode_text]
  simp only [kind, block32_bytes]
  rfl

theorem text_ne_nil (s : Signer) : s.text ≠ [] :=
  StrKey.encode_ne_nil _ _

/-- The text of a signer is one token without a question mark. -/
theorem mem_text {s : Signer} {c : Char} (h : c ∈ s.text) : Graphic c ∧ c ≠ '?' :=
  (StrKey.mem_encode h).imp id And.left

end Signer

/-! ### Assets -/

namespace Asset

/-- A code of four bytes is not all zero, and one of twelve has a byte behind the first four that is
not zero. -/
def Legible : Asset → Prop
  | .native => True
  | .alphaNum4 code _ => ∃ x ∈ code.bytes, x ≠ 0
  | .alphaNum12 code _ => ∃ x ∈ code.bytes.drop 4, x ≠ 0

instance : DecidablePred Legible
  | .native => .isTrue trivial
  | .alphaNum4 code _ => List.decidableBEx _ code.bytes
  | .alphaNum12 code _ => List.decidableBEx _ (code.bytes.drop 4)

/-- The last colon parts the code from the key, which has none. -/
theorem splitLastColon?_append {code key : List Char} (h : ':' ∉ key) :
    splitLastColon? (code ++ ':' :: key) = some (code, key) := by
  have keep : ∀ c ∈ key.reverse, decide (c ≠ ':') = true := by
    intro c hc
    simp only [decide_eq_true_eq]
    rintro rfl
    exact h (List.mem_reverse.mp hc)
  simp only [splitLastColon?, List.reverse_append, List.reverse_cons, List.append_assoc]
  rw [List.dropWhile_append_of_pos keep, List.takeWhile_append_of_pos keep]
  simp

/-- An issued asset has a colon in its text, and the native one has none. -/
theorem issued_ne_native (code : Bytes) (issuer : Block 32) :
    issued code issuer ≠ "native".toList := by
  intro h
  have : ':' ∈ "native".toList := h ▸ by simp [issued]
  exact absurd this (by decide)

/-- The text of an issued asset is one token without a question mark. -/
theorem mem_issued {code : Bytes} {issuer : Block 32} {c : Char} (h : c ∈ issued code issuer) :
    Graphic c ∧ c ≠ '?' := by
  rcases List.mem_append.mp h with h | h
  · exact Code.graphic_render code c h
  · rcases List.mem_cons.mp h with rfl | h
    · decide
    · exact (StrKey.mem_encode h).imp id And.left

/-- An issued asset is read by its code, of which there has to be something to read. -/
theorem parse_issued (code : Bytes) (issuer : Block 32) :
    parse (issued code issuer) =
      if ∃ x ∈ code, x ≠ 0 then ofCode (Code.render code) issuer
      else .error (.badAsset (String.ofList (issued code issuer))) := by
  have colon : ':' ∉ StrKey.encode .account issuer.bytes := fun h => (StrKey.mem_encode h).2.2 rfl
  have notNative := issued_ne_native code issuer
  have account : Account.parse (StrKey.encode .account issuer.bytes) = .ok (.ed25519 issuer) :=
    Account.parse_text (.ed25519 issuer)
  have split : splitLastColon? (issued code issuer) =
      some (Code.render code, StrKey.encode .account issuer.bytes) :=
    splitLastColon?_append colon
  simp only [parse, notNative, if_false, split]
  cases hr : Code.render code with
  | nil => rw [if_neg (Code.render_eq_nil.mp hr)]
  | cons c cs =>
      have shown : ∃ x ∈ code, x ≠ 0 := by
        by_contra zero
        rw [Code.render_eq_nil.mpr zero] at hr
        cases hr
      simp only [account, if_pos shown]

/-- A code is read into a shorter block when only zeros are cut off. -/
theorem scanBlock_render {n m : Nat} (code : Block m) (h : n ≤ m) :
    scanBlock n (Code.render code.bytes) =
      if ∃ x ∈ code.bytes.drop n, x ≠ 0 then .error .tooLong else .ok (code.take n h) := by
  have scanned := Code.scan_render (n := n) (Code.trimLeft_render code.bytes)
  by_cases more : ∃ x ∈ code.bytes.drop n, x ≠ 0
  · rw [if_neg (Nat.not_le_of_lt (Code.lt_length_significant.mpr more))] at scanned
    rw [scanBlock, scanned, if_pos more]
  · have fits := Nat.le_of_not_lt (mt Code.lt_length_significant.mp more)
    have filled := Code.significant_fill (by rw [code.length_bytes]; exact h) fits
    rw [if_pos fits, filled] at scanned
    rw [scanBlock, scanned, if_neg more]
    simp only [(code.take n h).ofBytes?_bytes,
      show code.bytes.take n = (code.take n h).bytes from rfl]

/-- A code of four bytes is read back as one, as its text is that of four bytes at most. -/
theorem ofCode_short (code : Block 4) (issuer : Block 32) :
    ofCode (Code.render code.bytes) issuer = .ok (.alphaNum4 code issuer) := by
  have short := scanBlock_render code (Nat.le_refl 4)
  rw [code.drop_self, if_neg (by simp), code.take_self] at short
  simp only [ofCode, short]

/-- A code of twelve bytes that fits in four is read into these. -/
theorem ofCode_long (code : Block 12) (issuer : Block 32) :
    ofCode (Code.render code.bytes) issuer =
      .ok (if ∃ x ∈ code.bytes.drop 4, x ≠ 0 then .alphaNum12 code issuer
        else .alphaNum4 (code.take 4 (by decide)) issuer) := by
  have short := scanBlock_render code (n := 4) (by decide)
  have long := scanBlock_render code (Nat.le_refl 12)
  rw [code.drop_self, if_neg (by simp), code.take_self] at long
  by_cases more : ∃ x ∈ code.bytes.drop 4, x ≠ 0
  · rw [if_pos more] at short ⊢
    simp only [ofCode, short, long]
  · rw [if_neg more] at short ⊢
    simp only [ofCode, short]

/-- The asset that the text of an asset stands for.  A code of twelve bytes that fits in four has
the text of the short form, and a code that is all zero has that of no asset. -/
def reread? : Asset → Option Asset
  | .native => some .native
  | .alphaNum4 code issuer =>
    if ∃ x ∈ code.bytes, x ≠ 0 then some (.alphaNum4 code issuer) else none
  | .alphaNum12 code issuer =>
    if ∃ x ∈ code.bytes, x ≠ 0 then
      some (if ∃ x ∈ code.bytes.drop 4, x ≠ 0 then .alphaNum12 code issuer
        else .alphaNum4 (code.take 4 (by decide)) issuer)
    else none

/-- An asset is read back as what its text stands for. -/
theorem parse_text (a : Asset) :
    parse a.text = a.reread?.elim (.error (.badAsset (String.ofList a.text))) .ok := by
  cases a with
  | native => simp [parse, text, reread?]
  | alphaNum4 code issuer =>
      rw [text, parse_issued, ofCode_short, reread?]
      split <;> rfl
  | alphaNum12 code issuer =>
      rw [text, parse_issued, ofCode_long, reread?]
      by_cases shown : ∃ x ∈ code.bytes, x ≠ 0
      · rw [if_pos shown, if_pos shown, Option.elim_some]
      · rw [if_neg shown, if_neg shown, Option.elim_none]

/-- The text of an asset stands for the asset itself exactly when the code is legible. -/
theorem reread?_eq_self (a : Asset) : a.reread? = some a ↔ a.Legible := by
  cases a with
  | native => simp [reread?, Legible]
  | alphaNum4 code issuer => simp [reread?, Legible]
  | alphaNum12 code issuer =>
      rw [reread?, Legible]
      by_cases more : ∃ x ∈ code.bytes.drop 4, x ≠ 0
      · have shown : ∃ x ∈ code.bytes, x ≠ 0 := by
          obtain ⟨x, hx, ne⟩ := more
          exact ⟨x, List.mem_of_mem_drop hx, ne⟩
        simp only [shown, more, if_true]
      · -- the short form is another asset
        simp only [more, if_false, Option.ite_none_right_eq_some, Option.some.injEq, reduceCtorEq,
          and_false]

/-- An asset is read back from its text exactly when its code is legible. -/
theorem parse_text_iff (a : Asset) : parse a.text = .ok a ↔ a.Legible := by
  rw [parse_text, ← reread?_eq_self]
  cases a.reread? <;> simp

/-- The text of any asset is one token without a question mark. -/
theorem mem_text {a : Asset} {c : Char} (h : c ∈ a.text) : Graphic c ∧ c ≠ '?' := by
  cases a with
  | native =>
      have letters : ∀ c ∈ "native".toList, Graphic c ∧ c ≠ '?' := forall_of_all (by decide)
      exact letters c h
  | alphaNum4 | alphaNum12 => exact mem_issued h

/-- No issued asset has the text of the native one. -/
theorem text_ne_native : ∀ {a : Asset}, a ≠ .native → a.text ≠ "native".toList
  | .native, h => absurd rfl h
  | .alphaNum4 .., _ | .alphaNum12 .., _ => issued_ne_native _ _

end Asset

end Key

end XdrText
