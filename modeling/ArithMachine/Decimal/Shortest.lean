import ArithMachine.Decimal.Basic

/-!
# Shortest decimals

Among the decimals that read back to a given magnitude word, `Decimal.shortest`
is one with the fewest digits, and of those the one nearest to the exact size;
when two are equally near, the larger one.

The decimals with a given number of digits around a size form a grid of powers
of ten.  If any point of a grid reads back, one of the two grid points next to
the exact size does, so only these are tried, on ever finer grids.  Nine digits
always suffice for binary32.
-/

namespace ArithMachine

namespace Decimal

section Shortest

/--
The power of ten of the leading digit of a positive number of units.

The least size is above 10 ^ (-45), so that scaling by 10 ^ 45 leaves a whole
part with as many digits as the leading power, counted from 10 ^ (-45).
-/
def leadingExponent (units : Nat) : Int :=
  (Nat.toDigits 10 (units * Nat.pow 10 45 / Value.unitsOfOne)).length - 46

/-- The size of a word in steps of `10 ^ exponent`, as a quotient: the numerator. -/
def stepNumerator (word : Nat) (exponent : Int) : Nat :=
  Value.units word * Nat.pow 10 (-exponent).toNat

/-- The size of a word in steps of `10 ^ exponent`, as a quotient: the denominator. -/
def stepDenominator (exponent : Int) : Nat :=
  Value.unitsOfOne * Nat.pow 10 exponent.toNat

/-- The digits of the greatest decimal with an exponent that is not beyond the size of a word. -/
def digitsBelow (word : Nat) (exponent : Int) : Nat :=
  stepNumerator word exponent / stepDenominator exponent

/--
The nearest multiple of `10 ^ exponent` that reads back to the word, if one of
the two multiples next to the exact size does.
-/
def onGrid? (word : Nat) (exponent : Int) : Option Decimal :=
  let rest := stepNumerator word exponent % stepDenominator exponent
  let below : Decimal := ⟨digitsBelow word exponent, exponent⟩
  let above : Decimal := ⟨digitsBelow word exponent + 1, exponent⟩
  if below.nearestWord = word then
    if above.nearestWord = word ∧ stepDenominator exponent ≤ 2 * rest then
      some above
    else
      some below
  else if above.nearestWord = word then
    some above
  else
    none

/-- The size of a word written out in full. -/
def exact (word : Nat) : Decimal :=
  ⟨Value.units word * Nat.pow 5 149, -149⟩

/-- The shortest decimal that reads back to the magnitude word of a positive finite value. -/
def shortest (word : Nat) : Decimal :=
  let lead := leadingExponent (Value.units word)
  let found := (List.range 9).findSome? fun (more : Nat) => onGrid? word (lead - (more : Int))
  (found.getD (exact word)).trim

end Shortest

end Decimal

end ArithMachine
