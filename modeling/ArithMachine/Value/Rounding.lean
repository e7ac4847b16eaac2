import ArithMachine.Value.Basic

/-!
# Rounding to binary32

An exact nonnegative size is given as a quotient of natural numbers, counted in
units of 2 ^ (-149).  `Value.nearestWord` is the magnitude word of the value
nearest to it; of two values that are equally near, the one whose last fraction
bit is clear.

All arithmetic and the reading of decimals go through this one rounding step.
-/

namespace ArithMachine

section Rounding

/-- The integer nearest to a quotient; a half goes to the even neighbour. -/
def roundHalfEven (num den : Nat) : Nat :=
  let quotient := num / den
  let rest := num % den
  if 2 * rest < den ∨ (2 * rest = den ∧ quotient % 2 = 0) then
    quotient
  else
    quotient + 1

/--
The word of a rounded significand, before sizes beyond the greatest finite one are cut off.

The significand keeps 24 bits, so a size of more than 24 bits is rounded at
`shift` bits above the unit.  Adding the rounded significand to `shift` times
0x800000 writes exponent field and fraction at once: the leading bit of a normal
significand carries into the exponent field, as does a significand that was
rounded up to 2 ^ 24.
-/
def Value.scaledWord (num den : Nat) : Nat :=
  let shift := (num / den).log2 - 23
  shift * 0x800000 + roundHalfEven num (den * Nat.pow 2 shift)

/--
The magnitude word of the value nearest to `num / den` units.

Sizes that round beyond the largest finite value are infinite.
-/
def Value.nearestWord (num den : Nat) : Nat :=
  min Value.infinityWord (Value.scaledWord num den)

/-- The value of the given sign nearest to `num / den` units. -/
def Value.round (negative : Bool) (num den : Nat) : Value :=
  Value.ofParts negative (Value.nearestWord num den)

theorem Value.nearestWord_le (num den : Nat) :
    Value.nearestWord num den ≤ Value.infinityWord :=
  Nat.min_le_left _ _

end Rounding

end ArithMachine
