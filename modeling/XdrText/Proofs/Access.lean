import XdrText.Proofs.Canonical
import XdrText.Proofs.Preservation

/-!
# XdrText — accesses that can fail

Codes and keys are read and written by cutting byte strings, by taking out and putting in single
bytes, and by turning byte strings into blocks.  Each such access fails where the bytes are not
there, or are not as many as the block has.  Here the functions that make them are given once more
with nothing to come out once an access has failed.  They are the same functions: no access fails,
whatever the text (`Form.Code.scanChecked_eq`, `Key.Account.parseChecked_eq`,
`Key.Signer.parseChecked_eq`, `Key.Asset.parseChecked_eq`) and whatever is written
(`Form.Code.renderChecked_eq`, `Key.Account.textChecked_eq`, `Key.Asset.textChecked_eq`).
-/

namespace XdrText
open Text

namespace Bytes

/-- The bytes with another one at an index; nothing where there is none. -/
def put? (b : Bytes) (i : Nat) (x : UInt8) : Option Bytes :=
  if i < b.length then some (b.set i x) else none

/-- The bytes with others copied over those from `i` to `j`, which must be there and as many. -/
def copy? (b : Bytes) (i j : Nat) (x : Bytes) : Option Bytes :=
  if i ≤ j ∧ j ≤ b.length ∧ x.length = j - i then some (b.take i ++ x ++ b.drop j) else none

/-- The bytes before the last `k`, and those; nothing where there are fewer. -/
def splitLast? (k : Nat) (b : Bytes) : Option (Bytes × Bytes) :=
  if k ≤ b.length then b.split? (b.length - k) else none

theorem put?_append (front : Bytes) (x y : UInt8) (rest : Bytes) :
    (front ++ y :: rest).put? front.length x = some (front ++ x :: rest) := by
  rw [put?, if_pos (by simp)]
  simp

end Bytes

/-! ### Codes -/

namespace Form.Code

/-- How many bytes there are up to the last one that is not zero. -/
def extent (b : Bytes) : Nat :=
  match b.reverse.findIdx? (· ≠ 0) with
  | none => 0
  | some i => b.length - 1 - i + 1

/-- A code with the zeros at its end cut off. -/
def renderChecked (b : Bytes) : Option (List Char) := do
  let (kept, _) ← b.split? (extent b)
  return kept.flatMap renderByte

/-- The bytes of a text put into `out` from index `i` on, at most `n` of them. -/
def putBytes : (n : Nat) → (out : Bytes) → (i : Nat) → List Char →
    Option (Except Fault (Bytes × List Char))
  | 0, out, _, s => some (.ok (out, s))
  | _ + 1, out, _, [] => some (.ok (out, []))
  | n + 1, out, i, c :: s =>
    if isBlank c then some (.ok (out, c :: s))
    else
      match scanByte c s with
      | .error f => some (.error f)
      | .ok (x, s) => do putBytes n (← out.put? i x) (i + 1) s

/-- A code put into a block of `n` zeros. -/
def scanChecked (n : Nat) (s : List Char) : Option (Except Fault Bytes) := do
  match ← putBytes n (List.replicate n 0) 0 (trimLeft s) with
  | .error f => return .error f
  | .ok (out, rest) => return if rest.head?.all isBlank then .ok out else .error .tooLong

theorem extent_eq (b : Bytes) : extent b = (significant b).length := by
  obtain ⟨k, hb, last⟩ := significant_append b
  generalize significant b = kept at hb last
  subst hb
  rcases List.eq_nil_or_concat kept with rfl | ⟨front, x, rfl⟩
  · simp [extent]
  · have found : (front.concat x ++ List.replicate k 0).reverse.findIdx? (· ≠ 0) = some k := by
      rw [List.findIdx?_eq_some_iff_getElem]
      have ne : x ≠ 0 := last x (by simp)
      refine ⟨by simp, ?_, fun j hj => ?_⟩
      · simpa [List.getElem_append] using ne
      · simp [hj]
    rw [extent, found]
    simp

/-- The zeros at the end of a code are there to be cut off. -/
theorem renderChecked_eq (b : Bytes) : renderChecked b = some (render b) := by
  obtain ⟨k, hb, -⟩ := significant_append b
  have cut : b.split? (significant b).length = some (significant b, List.replicate k 0) :=
    (congrArg _ hb).trans (Bytes.split?_append rfl)
  rw [renderChecked, extent_eq, cut]
  rfl

/-- Bytes are put where there are zeros. -/
theorem putBytes_eq (n : Nat) (front : Bytes) (s : List Char) :
    putBytes n (front ++ List.replicate n 0) front.length s =
      some ((fun r => (front ++ r.1 ++ List.replicate (n - r.1.length) 0, r.2))
        <$> scanBytes n s) := by
  induction n generalizing front s with
  | zero => simp [putBytes, scanBytes]
  | succ n ih =>
      cases s with
      | nil => simp [putBytes, scanBytes]
      | cons c s =>
          rw [putBytes, scanBytes]
          by_cases blank : isBlank c
          · simp [blank]
          · cases hb : scanByte c s with
            | error f => simp [blank, bind, Except.bind]
            | ok r =>
                obtain ⟨x, s⟩ := r
                have next := ih (front ++ [x]) s
                rw [List.append_assoc, List.length_append] at next
                rw [List.replicate_succ, if_neg blank, if_neg blank]
                simp only [Bytes.put?_append, bind, Option.bind_some, Except.bind]
                refine next.trans ?_
                cases scanBytes n s with
                | error f => rfl
                | ok r => simp [pure, Except.pure]

/-- A text has no more bytes put in than there are. -/
theorem scanChecked_eq (n : Nat) (s : List Char) : scanChecked n s = some (scan n s) := by
  have put := putBytes_eq n [] (trimLeft s)
  simp only [List.nil_append, List.length_nil] at put
  rw [scanChecked, put, scan]
  cases scanBytes n (trimLeft s) with
  | error f => rfl
  | ok r =>
      simp only [Except.map_ok, bind, Option.bind_some, Except.bind]
      split <;> rfl

end Form.Code

/-! ### Keys -/

namespace Key

namespace StrKey

/-- A key cut into its version, its payload and its checksum. -/
def decodeChecked (s : List Char) : Option (Except Fault (Version × Bytes)) :=
  match Base32.decode? s with
  | none => some (.error .invalidBase32)
  | some raw =>
    if raw.length < 3 then some (.error .invalidLength)
    else do
      let (body, trailer) ← raw.splitLast? 2
      let (sum, _) ← trailer.split? 2
      if sum ≠ Checksum.trailer body then return .error .badChecksum
      else
        let first ← body[0]?
        match Version.ofByte? first with
        | none => return .error .unknownVersion
        | some version =>
          let (_, payload) ← body.split? 1
          return if payload.length ≠ version.payloadLength then .error .invalidLength
            else .ok (version, payload)

/-- A key that is long enough has a version and a checksum. -/
theorem decodeChecked_eq (s : List Char) : decodeChecked s = some (decode s) := by
  rw [decodeChecked, decode]
  cases Base32.decode? s with
  | none => rfl
  | some raw =>
      by_cases short : raw.length < 3
      · simp only [if_pos short]
      · have cut := Bytes.split?_eq (n := raw.length - 2) (b := raw) (Nat.sub_le _ _)
        have back : raw.splitLast? 2 = raw.split? (raw.length - 2) := if_pos (by omega)
        have two : (raw.drop (raw.length - 2)).length = 2 := by
          rw [List.length_drop]
          omega
        have length : (raw.take (raw.length - 2)).length = raw.length - 2 :=
          List.length_take_of_le (Nat.sub_le _ _)
        obtain ⟨first, payload, body⟩ := List.exists_cons_of_length_pos
          (show 0 < (raw.take (raw.length - 2)).length by omega)
        have rest : Bytes.split? 1 (first :: payload) = some ([first], payload) :=
          Bytes.split?_append (a := [first]) rfl
        simp only [if_neg short, back, cut, body, Bytes.split?_self two, bind, Option.bind_some]
        by_cases sum : raw.drop (raw.length - 2) = Checksum.trailer (first :: payload)
        · simp only [sum, ne_eq, not_true_eq_false, if_false, List.getElem?_cons_zero,
            Option.bind_some]
          cases Version.ofByte? first with
          | none => rfl
          | some version =>
              simp only [rest, Option.bind_some]
              rfl
        · simp only [ne_eq, sum, not_false_eq_true, if_true]
          rfl

end StrKey

namespace Account

/-- The account of a multiplexed payload. -/
def ofMuxedChecked (payload : Bytes) : Option Account := do
  let (front, rest) ← payload.split? 32
  let key ← Block.ofBytes? 32 front
  let (id, _) ← rest.split? 8
  return .muxed (UInt64.ofNat id.toNat) key

/-- An account with its payload cut up at fixed places. -/
def parseChecked (s : List Char) : Option (Except Fault Account) := do
  match ← StrKey.decodeChecked s with
  | .error f => return .error (.strKey f)
  | .ok (.account, payload) => return .ok (.ed25519 (← Block.ofBytes? 32 payload))
  | .ok (.muxed, payload) => return .ok (← ofMuxedChecked payload)
  | .ok _ => return .error (.wrongKind .account)

/-- A multiplexed payload is a key and eight bytes. -/
theorem ofMuxedChecked_eq {payload : Bytes} (h : payload.length = 40) :
    ∃ a, ofMuxedChecked payload = some a ∧ ofMuxed payload = .ok a := by
  have cut := Bytes.split?_eq (n := 32) (b := payload) (by omega)
  have key := Block.ofBytes?_eq (n := 32) (b := payload.take 32) (by
    rw [List.length_take]
    omega)
  have id := Bytes.split?_self (n := 8) (b := payload.drop 32) (by
    rw [List.length_drop]
    omega)
  simp only [ofMuxedChecked, ofMuxed, block32, cut, key, id, bind, Option.bind_some]
  exact ⟨_, rfl, rfl⟩

/-- A key that is read has as many bytes as its version says. -/
theorem parseChecked_eq (s : List Char) : parseChecked s = some (parse s) := by
  rw [parseChecked, StrKey.decodeChecked_eq, parse]
  cases hd : StrKey.decode s with
  | error f => rfl
  | ok p =>
      obtain ⟨version, payload⟩ := p
      have length := (StrKey.encode_of_decode hd).1
      cases version with
      | account =>
          simp only [block32, Block.ofBytes?_eq (n := 32) length, bind, Option.bind_some]
          rfl
      | muxed =>
          obtain ⟨a, checked, plain⟩ := ofMuxedChecked_eq length
          simp only [checked, plain, bind, Option.bind_some]
          rfl
      | seed | preAuth | hashX => rfl

/-- The payload of a multiplexed account is put together in forty bytes. -/
def textChecked : Account → Option (List Char)
  | .ed25519 key => some (StrKey.encode .account key.bytes)
  | .muxed id key => do
    let payload ← Bytes.copy? (List.replicate 40 0) 0 32 key.bytes
    let payload ← payload.copy? 32 40 (Bytes.ofNat 8 id.toNat)
    return StrKey.encode .muxed payload

/-- Forty bytes are room for a key and the eight bytes of a number. -/
theorem textChecked_eq : ∀ a : Account, a.textChecked = some a.text
  | .ed25519 _ => rfl
  | .muxed id key => by
      have first : Bytes.copy? (List.replicate 40 0) 0 32 key.bytes =
          some (key.bytes ++ List.replicate 8 0) := by
        rw [Bytes.copy?, if_pos ⟨by decide, by decide, key.length_bytes⟩]
        rfl
      have second : Bytes.copy? (key.bytes ++ List.replicate 8 0) 32 40 (Bytes.ofNat 8 id.toNat) =
          some (key.bytes ++ Bytes.ofNat 8 id.toNat) := by
        rw [Bytes.copy?, if_pos ⟨by decide, by simp [key.length_bytes], Bytes.length_ofNat⟩]
        simp [key.length_bytes]
      rw [textChecked, first, Option.bind_eq_bind, Option.bind_some, second]
      rfl

/-- The last four bytes of the key, taken out one by one. -/
def hintChecked (a : Account) : Option Bytes :=
  [28, 29, 30, 31].mapM fun i => a.key.bytes[i]?

/-- A key has bytes at all four places of its hint. -/
theorem hintChecked_eq (a : Account) : a.hintChecked = some a.hint := by
  have length := a.key.length_bytes
  have there : ∀ i (h : i < 32), a.key.bytes[i]? = some (a.key.bytes[i]) := fun i h =>
    List.getElem?_eq_getElem (length.symm ▸ h)
  rw [hint, List.drop_eq_getElem_cons (by omega), List.drop_eq_getElem_cons (by omega),
    List.drop_eq_getElem_cons (by omega), List.drop_eq_getElem_cons (by omega),
    List.drop_of_length_le (by omega)]
  simp [hintChecked, there]

end Account

namespace Signer

/-- A signer with its key put into a block. -/
def parseChecked (s : List Char) : Option (Except Fault Signer) := do
  match ← StrKey.decodeChecked s with
  | .error f => return .error (.strKey f)
  | .ok (version, payload) =>
    match SignerKind.ofVersion? version with
    | some kind => return .ok ⟨kind, ← Block.ofBytes? 32 payload⟩
    | none => return .error (.wrongKind .signer)

/-- The key of a signer has 32 bytes. -/
theorem parseChecked_eq (s : List Char) : parseChecked s = some (parse s) := by
  rw [parseChecked, StrKey.decodeChecked_eq, parse]
  cases hd : StrKey.decode s with
  | error f => rfl
  | ok p =>
      obtain ⟨version, payload⟩ := p
      have length := (StrKey.encode_of_decode hd).1
      cases version with
      | account | preAuth | hashX =>
          simp only [SignerKind.ofVersion?, block32, Block.ofBytes?_eq (n := 32) length, bind,
            Option.bind_some]
          rfl
      | muxed | seed => rfl

end Signer

namespace Asset
open Form

/-- A code put into a block of its length. -/
def scanBlockChecked (n : Nat) (code : List Char) : Option (Except Code.Fault (Block n)) := do
  match ← Code.scanChecked n code with
  | .error f => return .error f
  | .ok b => return .ok (← Block.ofBytes? n b)

/-- The asset of a code, which is put into the shorter block if it fits. -/
def ofCodeChecked (code : List Char) (issuer : Block 32) : Option (Except Fault Asset) := do
  match ← scanBlockChecked 4 code with
  | .ok code => return .ok (.alphaNum4 code issuer)
  | .error .tooLong =>
    match ← scanBlockChecked 12 code with
    | .ok code => return .ok (.alphaNum12 code issuer)
    | .error f => return .error (.code f)
  | .error f => return .error (.code f)

/-- An asset, with the code and the issuer of one that is not native read with care. -/
def parseChecked (s : List Char) : Option (Except Fault Asset) :=
  if s = "native".toList then some (.ok .native)
  else
    match splitLastColon? s with
    | none | some ([], _) => some (.error (.badAsset (String.ofList s)))
    | some (code, issuer) => do
      match ← Account.parseChecked issuer with
      | .error f => return .error f
      | .ok (.muxed ..) => return .error (.wrongKind .issuer)
      | .ok (.ed25519 issuer) => ofCodeChecked code issuer

/-- A code that is read fills its block. -/
theorem scanBlockChecked_eq (n : Nat) (code : List Char) :
    scanBlockChecked n code = some (scanBlock n code) := by
  rw [scanBlockChecked, Code.scanChecked_eq, scanBlock]
  cases hs : Code.scan n code with
  | error f => rfl
  | ok b =>
      simp only [Block.ofBytes?_eq (Code.length_scan hs), bind, Option.bind_some]
      rfl

theorem ofCodeChecked_eq (code : List Char) (issuer : Block 32) :
    ofCodeChecked code issuer = some (ofCode code issuer) := by
  simp only [ofCodeChecked, scanBlockChecked_eq, ofCode, bind, Option.bind_some]
  cases scanBlock 4 code with
  | ok code => rfl
  | error f =>
      cases f with
      | tooLong => cases scanBlock 12 code <;> rfl
      | invalidCharacter | badEscape => rfl

theorem parseChecked_eq (s : List Char) : parseChecked s = some (parse s) := by
  simp only [parseChecked, Account.parseChecked_eq, ofCodeChecked_eq, parse, bind, Option.bind_some]
  by_cases native : s = "native".toList
  · simp only [if_pos native]
  · simp only [if_neg native]
    cases splitLastColon? s with
    | none => rfl
    | some p =>
        obtain ⟨code, issuer⟩ := p
        cases code with
        | nil => rfl
        | cons c code =>
            simp only
            cases Account.parse issuer with
            | error f => rfl
            | ok a => cases a <;> rfl

def issuedChecked (code : Bytes) (issuer : Block 32) : Option (List Char) := do
  return (← Code.renderChecked code) ++ ':' :: StrKey.encode .account issuer.bytes

def textChecked : Asset → Option (List Char)
  | .native => some "native".toList
  | .alphaNum4 code issuer => issuedChecked code.bytes issuer
  | .alphaNum12 code issuer => issuedChecked code.bytes issuer

theorem issuedChecked_eq (code : Bytes) (issuer : Block 32) :
    issuedChecked code issuer = some (issued code issuer) := by
  rw [issuedChecked, Code.renderChecked_eq]
  rfl

theorem textChecked_eq : ∀ a : Asset, a.textChecked = some a.text
  | .native => rfl
  | .alphaNum4 _ _ | .alphaNum12 _ _ => issuedChecked_eq _ _

end Asset

end Key
end XdrText
