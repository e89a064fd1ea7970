/-!
# XdrText — blank characters and tokens

The characters that separate tokens are those of the Unicode property `White_Space`, and
trimming removes them.  A value is read from its first token; whatever follows is commentary.
-/

namespace XdrText.Text

/-- The 25 characters with the Unicode property `White_Space`. -/
def isBlank (c : Char) : Bool :=
  let n := c.toNat
  (9 ≤ n && n ≤ 13) || n == 0x20 || n == 0x85 || n == 0xA0 || n == 0x1680 ||
    (0x2000 ≤ n && n ≤ 0x200A) || n == 0x2028 || n == 0x2029 || n == 0x202F || n == 0x205F ||
    n == 0x3000

def trimLeft (s : List Char) : List Char :=
  s.dropWhile isBlank

def trimRight (s : List Char) : List Char :=
  (s.reverse.dropWhile isBlank).reverse

/-- The text without the blanks at its ends. -/
def trim (s : List Char) : List Char :=
  trimRight (trimLeft s)

/-- The characters up to the first blank after the leading blanks. -/
def firstToken (s : List Char) : List Char :=
  (trimLeft s).takeWhile fun c => !isBlank c

end XdrText.Text
