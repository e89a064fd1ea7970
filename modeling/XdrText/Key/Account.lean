import XdrText.Key.Fault

/-!
# XdrText — accounts

The address of an account is its Ed25519 key, or such a key multiplexed with a 64-bit number, which
follows the key most significant byte first.
-/

namespace XdrText.Key

/-- A key, or one that a number is added to. -/
inductive Account where
  | ed25519 (key : Block 32)
  | muxed (id : UInt64) (key : Block 32)
  deriving DecidableEq

namespace Account

/-- The account whose key is zero. -/
def zero : Account := .ed25519 (Block.zero 32)

def key : Account → Block 32
  | .ed25519 key => key
  | .muxed _ key => key

/-- The last four bytes of the key, as a signature carries them. -/
def hint (a : Account) : Bytes :=
  a.key.bytes.drop 28

/-- The address of an account. -/
def text : Account → List Char
  | .ed25519 key => StrKey.encode .account key.bytes
  | .muxed id key => StrKey.encode .muxed (key.bytes ++ Bytes.ofNat 8 id.toNat)

/-- The account of a multiplexed payload; a payload too short to be cut is out of range. -/
def ofMuxed (payload : Bytes) : Except Fault Account :=
  match payload.split? 32 with
  | none => .error (.strKey .outOfRange)
  | some (key, rest) =>
    match block32 key, rest.split? 8 with
    | .error f, _ => .error f
    | .ok _, none => .error (.strKey .outOfRange)
    | .ok key, some (id, _) => .ok (.muxed (UInt64.ofNat id.toNat) key)

/-- A key of another kind is no account. -/
def parse (s : List Char) : Except Fault Account :=
  match StrKey.decode s with
  | .error f => .error (.strKey f)
  | .ok (.account, payload) => ed25519 <$> block32 payload
  | .ok (.muxed, payload) => ofMuxed payload
  | .ok _ => .error (.wrongKind .account)

end Account

end XdrText.Key
