import XdrText.Key.Base32
import XdrText.Key.Checksum

/-!
# XdrText — key text

A key is written as the base-32 form of a version byte, the key's payload and the checksum of
both.  The version byte decides the first character of the text and the length of the payload.
-/

namespace XdrText.Key.StrKey

/-- The kinds of key, by the first character of their text. -/
inductive Version where
  /-- `G…` -/
  | account
  /-- `M…` -/
  | muxed
  /-- `S…` -/
  | seed
  /-- `T…` -/
  | preAuth
  /-- `X…` -/
  | hashX
  deriving DecidableEq, Repr

namespace Version

def all : List Version := [.account, .muxed, .seed, .preAuth, .hashX]

/-- The index of the first character in the base-32 alphabet, in the upper five bits. -/
def byte : Version → UInt8
  | .account => 8 * 6
  | .muxed => 8 * 12
  | .seed => 8 * 18
  | .preAuth => 8 * 19
  | .hashX => 8 * 23

/-- The version that a first byte stands for. -/
def ofByte? (b : UInt8) : Option Version :=
  all.find? fun v => v.byte = b

/-- A multiplexed key carries eight bytes more. -/
def payloadLength : Version → Nat
  | .muxed => 40
  | _ => 32

end Version

/-- Why a text is no key. -/
inductive Fault where
  | invalidBase32
  | invalidLength
  | unknownVersion
  | badChecksum
  /-- A cut beyond the end of the key: `decode` checks lengths first, so it never arises. -/
  | outOfRange
  deriving DecidableEq, Repr

def Fault.message : Fault → String
  | .invalidBase32 => "Invalid base32 in StrKey"
  | .invalidLength => "StrKey has wrong length"
  | .unknownVersion => "Unknown StrKey version byte"
  | .badChecksum => "Invalid StrKey checksum"
  | .outOfRange => "StrKey is cut short"

/-- The text of a payload. -/
def encode (version : Version) (payload : Bytes) : List Char :=
  let body := version.byte :: payload
  Base32.encode (body ++ Checksum.trailer body)

/-- The version and the payload of a key.  The text is checked first, then the least length, the
checksum, the version byte and the length that goes with it. -/
def decode (s : List Char) : Except Fault (Version × Bytes) :=
  match Base32.decode? s with
  | none => .error .invalidBase32
  | some raw =>
    if raw.length < 3 then .error .invalidLength
    else
      match raw.split? (raw.length - 2) with
      | some (first :: payload, trailer) =>
        if trailer ≠ Checksum.trailer (first :: payload) then .error .badChecksum
        else
          match Version.ofByte? first with
          | none => .error .unknownVersion
          | some version =>
            if payload.length ≠ version.payloadLength then .error .invalidLength
            else .ok (version, payload)
      | _ => .error .outOfRange

end XdrText.Key.StrKey
