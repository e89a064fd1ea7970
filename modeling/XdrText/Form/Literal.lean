import XdrText.Text.Blank
import XdrText.Text.Hex

/-!
# XdrText — string literals

A string of bytes is written between double quotes.  Graphic ASCII characters and the space stand
for themselves; the quote, the backslash and every other byte are escaped, so a literal never
leaves its line.  A value without an opening quote is its first token.
-/

namespace XdrText.Form.Literal
open XdrText.Text

/-- Why a text is no literal. -/
inductive Fault where
  | badEscape
  | unterminated
  deriving DecidableEq, Repr

def Fault.message : Fault → String
  | .badEscape => "invalid \\x escape in string"
  | .unterminated => "unterminated string"

/-- A byte as it stands between the quotes. -/
def renderByte (b : UInt8) : List Char :=
  if b = 0x22 then ['\\', '"']
  else if b = 0x5C then ['\\', '\\']
  else if b = 0x0A then ['\\', 'n']
  else if b = 0x09 then ['\\', 't']
  else if b = 0x0D then ['\\', 'r']
  else if 0x20 ≤ b ∧ b ≤ 0x7E then [Char.ofUInt8 b]
  else '\\' :: 'x' :: Hex.ofByte b

/-- A literal between its quotes. -/
def render (b : Bytes) : List Char :=
  '"' :: b.flatMap renderByte ++ ['"']

/-- The byte that two characters after `\x` spell: two digits, or a `+` and a digit. -/
def escapedByte? (high low : UInt8) : Option UInt8 :=
  if high = 0x2B then (Hex.value? (Char.ofUInt8 low)).map UInt8.ofNat
  else Hex.byte? (Char.ofUInt8 high) (Char.ofUInt8 low)

/-- The bytes up to the closing quote; the text is given as UTF-8. -/
def scanBody : Bytes → Except Fault Bytes
  | [] => .error .unterminated
  | b :: rest =>
    if b = 0x22 then .ok []
    else if b = 0x5C then
      match rest with
      | [] => .error .unterminated
      | e :: rest =>
        if e = 0x6E then (0x0A :: ·) <$> scanBody rest
        else if e = 0x74 then (0x09 :: ·) <$> scanBody rest
        else if e = 0x72 then (0x0D :: ·) <$> scanBody rest
        else if e = 0x78 then
          match rest with
          | high :: low :: rest =>
            match escapedByte? high low with
            | some x => (x :: ·) <$> scanBody rest
            | none => .error .badEscape
          | _ => .error .badEscape
        else (e :: ·) <$> scanBody rest
    else (b :: ·) <$> scanBody rest

/-- The bytes of a literal, or of a first token without quotes. -/
def scan (s : List Char) : Except Fault Bytes :=
  match trimLeft s with
  | '"' :: body => scanBody (Utf8.encode body)
  | s => .ok (Utf8.encode (firstToken s))

end XdrText.Form.Literal
