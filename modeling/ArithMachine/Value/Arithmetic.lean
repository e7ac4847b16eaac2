import ArithMachine.Value.Rounding

/-!
# Arithmetic

Sums, products and quotients of finite values are computed exactly on their
units and rounded once.  Infinities and NaNs follow the usual table; no
operation fails, and every invalid one answers `Value.nan`, as does every one
with a NaN among its operands.  The word of that answer is a choice: an
implementation may hand on the payload of an operand, or set the sign.

The sign of a product or quotient is negative when the signs of the operands
differ.  A sum that is exactly zero is the positive zero, unless both operands
are negative zeros.
-/

namespace ArithMachine

namespace Value

section Arithmetic

/-- A size with its sign. -/
def signed (negative : Bool) (units : Nat) : Int :=
  if negative then -(units : Int) else units

/-- The sum of two readings; where it is a NaN, the word of it is fixed as `Value.nan`. -/
def Datum.add : Datum → Datum → Value
  | .nan, _ => Value.nan
  | _, .nan => Value.nan
  | .infinite s, .infinite t => if s = t then infinity s else Value.nan
  | .infinite s, .finite _ _ => infinity s
  | .finite _ _, .infinite t => infinity t
  | .finite s m, .finite t n =>
      let sum := signed s m + signed t n
      if sum = 0 then
        zero (s && t)
      else
        round (decide (sum < 0)) sum.natAbs 1

/--
The product of two readings; a product of units counts steps of 2 ^ (-298).

Where it is a NaN, the word of it is fixed as `Value.nan`.
-/
def Datum.multiply : Datum → Datum → Value
  | .nan, _ => Value.nan
  | _, .nan => Value.nan
  | .infinite s, .infinite t => infinity (s ^^ t)
  | .infinite s, .finite t n => if n = 0 then Value.nan else infinity (s ^^ t)
  | .finite s m, .infinite t => if m = 0 then Value.nan else infinity (s ^^ t)
  | .finite s m, .finite t n => round (s ^^ t) (m * n) unitsOfOne

/--
The quotient of two readings; division by zero is infinite, and invalid only for zero by zero.

Where it is a NaN, the word of it is fixed as `Value.nan`.
-/
def Datum.divide : Datum → Datum → Value
  | .nan, _ => Value.nan
  | _, .nan => Value.nan
  | .infinite _, .infinite _ => Value.nan
  | .infinite s, .finite t _ => infinity (s ^^ t)
  | .finite s _, .infinite t => zero (s ^^ t)
  | .finite s m, .finite t n =>
      if n = 0 then
        if m = 0 then Value.nan else infinity (s ^^ t)
      else
        round (s ^^ t) (m * unitsOfOne) n

def add (a b : Value) : Value :=
  a.datum.add b.datum

/-- Subtraction adds the negated operand. -/
def subtract (a b : Value) : Value :=
  a.add b.negate

def multiply (a b : Value) : Value :=
  a.datum.multiply b.datum

def divide (a b : Value) : Value :=
  a.datum.divide b.datum

end Arithmetic

end Value

end ArithMachine
