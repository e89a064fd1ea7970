import XdrText.Text.Blank
import XdrText.Text.Hex

/-!
# XdrText — identifier codes

A short identifier in a block of fixed length is written as text: the zero bytes at its end are
dropped, graphic ASCII characters stand for themselves, and a backslash begins an escape.  A `?` is
always escaped, since a value that ends in one asks for help.
-/

namespace XdrText.Form.Code
open XdrText.Text

/-- Why a text is no code. -/
inductive Fault where
  | invalidCharacter
  | tooLong
  | badEscape
  deriving DecidableEq, Repr

def Fault.message : Fault → String
  | .invalidCharacter => "Invalid character in AssetCode"
  | .tooLong => "AssetCode too long"
  | .badEscape => "Invalid escape sequence in AssetCode"

/-- A byte of a code as text. -/
def renderByte (b : UInt8) : List Char :=
  if b = 0x5C then ['\\', '\\']
  else if b = 0x3F then "\\x3f".toList
  else if 0x21 ≤ b ∧ b ≤ 0x7E then [Char.ofUInt8 b]
  else '\\' :: 'x' :: Hex.ofByte b

/-- The bytes up to the last one that is not zero. -/
def significant (b : Bytes) : Bytes :=
  (b.reverse.dropWhile (· = 0)).reverse

/-- A code without the zero bytes at its end. -/
def render (b : Bytes) : List Char :=
  (significant b).flatMap renderByte

/-- The byte written at the head of a nonempty text, and the text after it. -/
def scanByte (c : Char) (rest : List Char) : Except Fault (UInt8 × List Char) :=
  if c = '\\' then
    match rest with
    | 'x' :: high :: low :: rest =>
      match Hex.byte? high low with
      | some b => .ok (b, rest)
      | none => .error .badEscape
    | 'x' :: _ => .error .badEscape
    | e :: rest => if e.toNat < 0x80 then .ok (e.toUInt8, rest) else .error .invalidCharacter
    | [] => .error .badEscape
  else if 0x21 ≤ c.toNat ∧ c.toNat ≤ 0x7E then .ok (c.toUInt8, rest)
  else .error .invalidCharacter

/-- At most `n` bytes, ending before a blank, and the text after them. -/
def scanBytes : (n : Nat) → List Char → Except Fault (Bytes × List Char)
  | 0, s => .ok ([], s)
  | _ + 1, [] => .ok ([], [])
  | n + 1, c :: s =>
    if isBlank c then .ok ([], c :: s)
    else do
      let (b, s) ← scanByte c s
      let (bs, s) ← scanBytes n s
      return (b :: bs, s)

/-- A code of at most `n` bytes, filled up to `n` with zeros. -/
def scan (n : Nat) (s : List Char) : Except Fault Bytes := do
  let (b, rest) ← scanBytes n (trimLeft s)
  if rest.head?.all isBlank then
    return b ++ List.replicate (n - b.length) 0
  else throw .tooLong

end XdrText.Form.Code
