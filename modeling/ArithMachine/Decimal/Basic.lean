import ArithMachine.Value.Rounding

/-!
# Decimals

A decimal is a whole number of digits with a power of ten.  Reading it as a
binary32 value rounds its exact size once; `Decimal.nearestWord` is the
magnitude word that comes out.
-/

namespace ArithMachine

section DecimalNumber

/-- The number `digits * 10 ^ exponent`. -/
@[ext] structure Decimal where
  digits : Nat
  exponent : Int
deriving DecidableEq, Repr

namespace Decimal

/-- The size of a decimal in units of 2 ^ (-149), as a quotient: the numerator. -/
def numerator (d : Decimal) : Nat :=
  d.digits * Nat.pow 10 d.exponent.toNat * Value.unitsOfOne

/-- The size of a decimal in units of 2 ^ (-149), as a quotient: the denominator. -/
def denominator (d : Decimal) : Nat :=
  Nat.pow 10 (-d.exponent).toNat

/-- The magnitude word of the binary32 value nearest to the decimal. -/
def nearestWord (d : Decimal) : Nat :=
  Value.nearestWord d.numerator d.denominator

/-- The power of ten of the first digit that is written. -/
def lead (d : Decimal) : Int :=
  d.exponent + (Nat.toDigits 10 d.digits).length - 1

/-- The same number without trailing zeros among its digits. -/
def trim (d : Decimal) : Decimal :=
  if d.digits ≠ 0 ∧ d.digits % 10 = 0 then
    trim ⟨d.digits / 10, d.exponent + 1⟩
  else
    d
termination_by d.digits
decreasing_by omega

end Decimal

end DecimalNumber

end ArithMachine
