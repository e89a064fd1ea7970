import XdrText.Key.Account

/-!
# XdrText — assets

An asset is the native one, or a code of up to four or up to twelve bytes under an issuer.  The
text `CODE:ISSUER` does not say which: a code that fits in four bytes has the short form.
-/

namespace XdrText.Key

/-- What an account can hold. -/
inductive Asset where
  | native
  | alphaNum4 (code : Block 4) (issuer : Block 32)
  | alphaNum12 (code : Block 12) (issuer : Block 32)
  deriving DecidableEq

namespace Asset
open Form

def isNative : Asset → Bool
  | .native => true
  | _ => false

/-- The text of a code of any length under an issuer. -/
def issued (code : Bytes) (issuer : Block 32) : List Char :=
  Code.render code ++ ':' :: StrKey.encode .account issuer.bytes

def text : Asset → List Char
  | .native => "native".toList
  | .alphaNum4 code issuer => issued code.bytes issuer
  | .alphaNum12 code issuer => issued code.bytes issuer

/-- The parts of a text before and after its last colon. -/
def splitLastColon? (s : List Char) : Option (List Char × List Char) :=
  match s.reverse.dropWhile (· ≠ ':') with
  | [] => none
  | _ :: before => some (before.reverse, (s.reverse.takeWhile (· ≠ ':')).reverse)

/-- A code as a block of `n` bytes. -/
def scanBlock (n : Nat) (code : List Char) : Except Code.Fault (Block n) :=
  match Code.scan n code with
  | .error f => .error f
  | .ok b =>
    match Block.ofBytes? n b with
    | some code => .ok code
    | none => .error .tooLong

/-- The asset of a code under an issuer: a code too long for four bytes may have twelve. -/
def ofCode (code : List Char) (issuer : Block 32) : Except Fault Asset :=
  match scanBlock 4 code with
  | .ok code => .ok (.alphaNum4 code issuer)
  | .error .tooLong =>
    match scanBlock 12 code with
    | .ok code => .ok (.alphaNum12 code issuer)
    | .error f => .error (.code f)
  | .error f => .error (.code f)

/-- The issuer is read before the code. -/
def parse (s : List Char) : Except Fault Asset :=
  if s = "native".toList then .ok .native
  else
    match splitLastColon? s with
    | none | some ([], _) => .error (.badAsset (String.ofList s))
    | some (code, issuer) =>
      match Account.parse issuer with
      | .error f => .error f
      | .ok (.muxed ..) => .error (.wrongKind .issuer)
      | .ok (.ed25519 issuer) => ofCode code issuer

end Asset

end XdrText.Key
