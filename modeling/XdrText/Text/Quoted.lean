import XdrText.Text.Hidden

/-!
# XdrText — quoted text in messages

A message shows the text it complains about between quotes, so that every character of it can be
seen: the quote and the backslash are escaped, control characters have short names, and any other
character that does not show is written as its code point in hexadecimal.
-/

namespace XdrText.Text.Quoted

/-- A character as it stands between two `quote`s. -/
def escaped (quote c : Char) : List Char :=
  if c = '\x00' then ['\\', '0']
  else if c = '\t' then ['\\', 't']
  else if c = '\r' then ['\\', 'r']
  else if c = '\n' then ['\\', 'n']
  else if c = quote ∨ c = '\\' then ['\\', c]
  else if isHidden c then ['\\', 'u', '\x7b'] ++ Nat.toDigits 16 c.toNat ++ ['\x7d']
  else [c]

/-- A text between double quotes. -/
def text (s : String) : String :=
  String.ofList ('"' :: s.toList.flatMap (escaped '"') ++ ['"'])

/-- A character between single quotes. -/
def char (c : Char) : String :=
  String.ofList ('\x27' :: escaped '\x27' c ++ ['\x27'])

end XdrText.Text.Quoted
