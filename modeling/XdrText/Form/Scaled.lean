import XdrText.Text.Decimal

/-!
# XdrText — scaled integers

`123456789` with exponent 7 is shown as `12.3456789e7`: the number divided by `10 ^ 7`, its whole
part in groups of three digits, and the exponent that restores it.
-/

namespace XdrText.Form.Scaled
open XdrText.Text

/-- A comma after each three digits that are followed by another; the digits are given last to
first. -/
def separate : List Char → List Char
  | a :: b :: c :: d :: rest => a :: b :: c :: ',' :: separate (d :: rest)
  | short => short

/-- A natural number with a comma before each full group of three digits. -/
def grouped (n : Nat) : List Char :=
  (separate (Decimal.ofNat n).reverse).reverse

/-- The point and the digits of `frac / 10 ^ exp` without the zeros at the end; nothing for 0. -/
def fraction (exp frac : Nat) : List Char :=
  if frac = 0 then []
  else '.' :: ((Decimal.padded exp frac).reverse.dropWhile (· = '0')).reverse

/-- The exponent used for `exp`: a unit of `10 ^ 20` or more is not applied. -/
def exponent (exp : Nat) : Nat :=
  if exp < 20 then exp else 0

def render (exp : Nat) (v : Int) : List Char :=
  let e := exponent exp
  let unit := Nat.pow 10 e
  (if v < 0 then ['-'] else []) ++ grouped (v.natAbs / unit) ++ fraction e (v.natAbs % unit) ++
    'e' :: Decimal.ofNat e

end XdrText.Form.Scaled
