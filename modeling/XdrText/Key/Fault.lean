import XdrText.Form.Code
import XdrText.Key.StrKey
import XdrText.Text.Quoted

/-!
# XdrText — why a key or an asset is refused
-/

namespace XdrText.Key

/-- What a key was expected to be. -/
inductive Role where
  | account
  | signer
  | issuer
  deriving DecidableEq, Repr

def Role.phrase : Role → String
  | .account => "an account"
  | .signer => "a signer key"
  | .issuer => "an issuer"

/-- Why a text is no key or no asset. -/
inductive Fault where
  | strKey (fault : StrKey.Fault)
  | code (fault : Form.Code.Fault)
  /-- The key is well-formed and of another kind. -/
  | wrongKind (wanted : Role)
  /-- A text that is neither `native` nor a code, a colon and an issuer. -/
  | badAsset (text : String)
  deriving DecidableEq, Repr

def Fault.message : Fault → String
  | .strKey f => f.message
  | .code f => f.message
  | .wrongKind role => "StrKey is not " ++ role.phrase
  | .badAsset text => "Invalid asset " ++ Text.Quoted.text text

/-- The 32 bytes of a key. -/
def block32 (payload : Bytes) : Except Fault (Block 32) :=
  match Block.ofBytes? 32 payload with
  | some key => .ok key
  | none => .error (.strKey .invalidLength)

end XdrText.Key
