import ArithMachine.Decimal.Basic

/-!
# Decimal notation

Decimals are written positionally while their leading digit stands between the
fourth place behind the point and the sixteenth before it, and otherwise with
an exponent.  Positional text always has a fraction part, `5.0`; text with an
exponent has one only when there is a second digit, `1e16` and `1.5e-7`.

`Decimal.ofText?` reads both forms back.
-/

namespace ArithMachine

namespace Decimal

section Notation

/-- An integer in decimal digits, with a sign only when it is negative. -/
def integerText (n : Int) : List Char :=
  (if n < 0 then ['-'] else []) ++ Nat.toDigits 10 n.natAbs

/-- Digits with a point in its place, padded by zeros as far as the point needs. -/
def positional (digits : List Char) (exponent : Int) : List Char :=
  let whole := exponent + digits.length
  if 0 ≤ exponent then
    digits ++ List.replicate exponent.toNat '0' ++ ['.', '0']
  else if 0 < whole then
    digits.take whole.toNat ++ '.' :: digits.drop whole.toNat
  else
    '0' :: '.' :: (List.replicate (-whole).toNat '0' ++ digits)

/-- One digit before the point, then the power of ten of that digit. -/
def scientific (digits : List Char) (lead : Int) : List Char :=
  let fraction :=
    match digits.tail with
    | [] => []
    | rest => '.' :: rest
  digits.take 1 ++ fraction ++ 'e' :: integerText lead

/-- Whether a decimal whose leading digit has this power of ten is written positionally. -/
def isPositional (lead : Int) : Bool :=
  decide (-4 ≤ lead ∧ lead < 16)

/-- The text of a decimal. -/
def text (d : Decimal) : List Char :=
  let digits := Nat.toDigits 10 d.digits
  if isPositional d.lead then
    positional digits d.exponent
  else
    scientific digits d.lead

/-- The number written by a nonempty run of digits. -/
def digits? (cs : List Char) : Option Nat :=
  if cs ≠ [] ∧ cs.all Char.isDigit then
    some (Nat.ofDigitChars 10 cs 0)
  else
    none

/-- The power of ten behind the digits: nothing, or `e` and an integer. -/
def exponent? : List Char → Option Int
  | [] => some 0
  | 'e' :: '-' :: cs => (digits? cs).map fun n => -(n : Int)
  | 'e' :: cs => (digits? cs).map fun n => (n : Int)
  | _ => none

/-- Reads digits, a fraction part that may be missing, and an exponent that may be missing. -/
def ofText? (cs : List Char) : Option Decimal := do
  let whole := cs.takeWhile Char.isDigit
  let (fraction, rest) :=
    match cs.dropWhile Char.isDigit with
    | '.' :: more => (more.takeWhile Char.isDigit, more.dropWhile Char.isDigit)
    | more => ([], more)
  let digits ← digits? (whole ++ fraction)
  let exponent ← exponent? rest
  return ⟨digits, exponent - fraction.length⟩

end Notation

end Decimal

end ArithMachine
