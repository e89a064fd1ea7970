import XdrText.Key.Fault

/-!
# XdrText — signer keys and signatures

A signer is an Ed25519 key, the hash of a transaction authorised in advance, or the hash of a
secret.  A signature carries the last bytes of the key that made it as a hint.
-/

namespace XdrText.Key

/-- What the key of a signer is. -/
inductive SignerKind where
  | ed25519
  | preAuth
  | hashX
  deriving DecidableEq, Repr

namespace SignerKind

def version : SignerKind → StrKey.Version
  | .ed25519 => .account
  | .preAuth => .preAuth
  | .hashX => .hashX

/-- The kind of signer that a key version stands for, if any. -/
def ofVersion? : StrKey.Version → Option SignerKind
  | .account => some .ed25519
  | .preAuth => some .preAuth
  | .hashX => some .hashX
  | .muxed | .seed => none

end SignerKind

/-- The key of a signer, with its kind. -/
structure Signer where
  kind : SignerKind
  key : Block 32
  deriving DecidableEq

namespace Signer

/-- The Ed25519 signer whose key is zero. -/
def zero : Signer := ⟨.ed25519, Block.zero 32⟩

/-- The text of a signer. -/
def text (s : Signer) : List Char :=
  StrKey.encode s.kind.version s.key.bytes

/-- A key of another kind is no signer. -/
def parse (s : List Char) : Except Fault Signer :=
  match StrKey.decode s with
  | .error f => .error (.strKey f)
  | .ok (version, payload) =>
    match SignerKind.ofVersion? version with
    | some kind => Signer.mk kind <$> block32 payload
    | none => .error (.wrongKind .signer)

end Signer

/-- A signature with the hint of its key. -/
structure Signature where
  hint : Block 4
  body : Bytes
  deriving DecidableEq

namespace Signature

/-- The greatest length of a signature. -/
def maximum : Nat := 64

/-- The empty signature with the hint zero. -/
def zero : Signature := ⟨Block.zero 4, []⟩

end Signature

end XdrText.Key
