/-!
# XdrText — decimal integers

An integer is written in decimal without superfluous zeros.  Reading takes a sign and digits from
left to right and stops at the first thing that is wrong: a character that is no digit, or the
digit that takes the number out of range.
-/

namespace XdrText.Text.Decimal

/-- Why a text is no integer. -/
inductive Fault where
  | empty
  | badDigit
  | tooLarge
  | tooSmall
  deriving DecidableEq, Repr

def Fault.message : Fault → String
  | .empty => "cannot parse integer from empty string"
  | .badDigit => "invalid digit found in string"
  | .tooLarge => "number too large to fit in target type"
  | .tooSmall => "number too small to fit in target type"

/-- Append digits to the number `n`, refusing with `beyond` a number beyond `limit`. -/
def appendDigits (limit : Nat) (beyond : Fault) : (n : Nat) → List Char → Except Fault Nat
  | n, [] => .ok n
  | n, c :: cs =>
    if c.isDigit then
      let m := 10 * n + (c.toNat - '0'.toNat)
      if m ≤ limit then appendDigits limit beyond m cs else .error beyond
    else .error .badDigit

/-- A natural number up to `greatest`, with an optional `+`. -/
def readNat (greatest : Nat) : List Char → Except Fault Nat
  | [] => .error .empty
  | ['+'] => .error .badDigit
  | '+' :: ds => appendDigits greatest .tooLarge 0 ds
  | ds => appendDigits greatest .tooLarge 0 ds

/-- An integer from `-least` to `greatest`, with an optional sign. -/
def readInt (least greatest : Nat) : List Char → Except Fault Int
  | ['-'] => .error .badDigit
  | '-' :: ds => (fun n : Nat => -(n : Int)) <$> appendDigits least .tooSmall 0 ds
  | s => (fun n : Nat => (n : Int)) <$> readNat greatest s

def readInt32 (s : List Char) : Except Fault Int32 :=
  Int32.ofInt <$> readInt (Int32.size / 2) (Int32.size / 2 - 1) s

def readInt64 (s : List Char) : Except Fault Int64 :=
  Int64.ofInt <$> readInt (Int64.size / 2) (Int64.size / 2 - 1) s

def readUInt32 (s : List Char) : Except Fault UInt32 :=
  UInt32.ofNat <$> readNat (UInt32.size - 1) s

def readUInt64 (s : List Char) : Except Fault UInt64 :=
  UInt64.ofNat <$> readNat (UInt64.size - 1) s

/-- The digits of a number. -/
def ofNat (n : Nat) : List Char :=
  Nat.toDigits 10 n

/-- The digits of an integer, behind a minus if it is negative. -/
def ofInt : Int → List Char
  | .ofNat n => ofNat n
  | .negSucc n => '-' :: ofNat (n + 1)

/-- `n` in at least `width` digits. -/
def padded (width n : Nat) : List Char :=
  List.replicate (width - (ofNat n).length) '0' ++ ofNat n

theorem noFeed_ofNat {n : Nat} : '\n' ∉ ofNat n :=
  fun h => absurd (Nat.isDigit_of_mem_toDigits (by decide) (by decide) h) (by decide)

theorem noFeed_padded {width n : Nat} : '\n' ∉ padded width n := by
  rw [padded, List.mem_append]
  rintro (h | h)
  · exact absurd (List.eq_of_mem_replicate h) (by decide)
  · exact noFeed_ofNat h

end XdrText.Text.Decimal
