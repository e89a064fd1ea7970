import XdrText.Text.Blank
import XdrText.Text.Decimal
import XdrText.Text.Hex

/-!
# XdrText — opaque data

Opaque data is written in hexadecimal, and empty data of variable length as `0 bytes`.
-/

namespace XdrText.Form.Octets
open XdrText.Text

/-- Why a text is no data. -/
inductive Fault where
  | hex (fault : Hex.Fault)
  /-- Data of fixed length has another length. -/
  | wrongLength (expected found : Nat)
  deriving DecidableEq, Repr

def Fault.message : Fault → String
  | .hex f => f.message
  | .wrongLength n m => "expected " ++ Nat.repr n ++ " bytes, found " ++ Nat.repr m

/-- Data in hexadecimal, and `0 bytes` where there is none. -/
def render : Bytes → List Char
  | [] => "0 bytes".toList
  | b => Hex.encode b

/-- Data of any length; the token `0` is the empty data. -/
def scan (s : List Char) : Except Fault Bytes :=
  let token := firstToken s
  if token = ['0'] then .ok [] else (Hex.decode token).mapError .hex

/-- Data of exactly `n` bytes. -/
def scanFixed (n : Nat) (s : List Char) : Except Fault Bytes :=
  match Hex.decode (firstToken s) with
  | .error f => .error (.hex f)
  | .ok b => if b.length = n then .ok b else .error (.wrongLength n b.length)

end XdrText.Form.Octets
