import XdrText.Bytes

/-!
# XdrText — UTF-8

Characters are written as UTF-8.  Reading is lossy: each maximal run of bytes that begins a
character and breaks off before it is complete, and each byte that begins none, becomes one
U+FFFD.  The reader is a machine that takes one byte at a time; a byte that does not continue
the character begun is read again as the beginning of the next, so an ASCII byte is never lost.
-/

namespace XdrText.Text.Utf8

def encode (s : List Char) : Bytes :=
  s.flatMap String.utf8EncodeChar

/-- U+FFFD. -/
def replacement : Char := '\uFFFD'

/-- What has been read of the character under way. -/
inductive State where
  /-- Between characters. -/
  | start
  /-- `code` holds the bits read so far; `missing + 1` bytes are still to come, the next one
  between `least` and `greatest`. -/
  | within (code : Nat) (missing : Nat) (least greatest : UInt8)

/-- The state after a first byte, with what that byte alone gives. -/
def begin (b : UInt8) : State × List Char :=
  if b < 0x80 then (.start, [Char.ofNat b.toNat])
  else if 0xC2 ≤ b && b ≤ 0xDF then (.within (b.toNat - 0xC0) 0 0x80 0xBF, [])
  else if b = 0xE0 then (.within 0 1 0xA0 0xBF, [])
  else if b = 0xED then (.within 13 1 0x80 0x9F, [])
  else if 0xE1 ≤ b && b ≤ 0xEF then (.within (b.toNat - 0xE0) 1 0x80 0xBF, [])
  else if b = 0xF0 then (.within 0 2 0x90 0xBF, [])
  else if 0xF1 ≤ b && b ≤ 0xF3 then (.within (b.toNat - 0xF0) 2 0x80 0xBF, [])
  else if b = 0xF4 then (.within 4 2 0x80 0x8F, [])
  else (.start, [replacement])

/-- The state after one more byte, with the characters it completes. -/
def step : State → UInt8 → State × List Char
  | .start, b => begin b
  | .within code missing least greatest, b =>
    if least ≤ b && b ≤ greatest then
      let code := 64 * code + (b.toNat - 0x80)
      match missing with
      | 0 => (.start, [Char.ofNat code])
      | missing + 1 => (.within code missing 0x80 0xBF, [])
    else ((begin b).1, replacement :: (begin b).2)

/-- The characters of a byte string read in the given state; a character left incomplete at the
end becomes one U+FFFD. -/
def decodeFrom : State → Bytes → List Char
  | .start, [] => []
  | .within .., [] => [replacement]
  | s, b :: bs => (step s b).2 ++ decodeFrom (step s b).1 bs

def decodeLossy (b : Bytes) : List Char :=
  decodeFrom .start b

end XdrText.Text.Utf8
