import ArithMachine.Value.Arithmetic

/-!
# Numeric comparison

Values compare by what they denote.  Infinities lie beyond every finite value,
the two zeros are equal, and a NaN compares with nothing, itself included.
-/

namespace ArithMachine

namespace Value

section Order

/-- The place of a value on the number line, in units of 2 ^ (-149); a NaN has none. -/
def position? (v : Value) : Option Int :=
  if v.isNaN then
    none
  else
    some (signed v.negative (units v.magnitude))

/-- How two values compare, unless one of them is a NaN. -/
def compare? (a b : Value) : Option Ordering := do
  let x ← a.position?
  let y ← b.position?
  return compare x y

/-- Numeric equality. -/
def numEq (a b : Value) : Bool :=
  a.compare? b == some .eq

/-- A value equals itself numerically unless it is a NaN. -/
theorem numEq_self (v : Value) : v.numEq v = !v.isNaN := by
  unfold numEq compare? position?
  by_cases hv : v.isNaN <;> simp [hv]

end Order

end Value

end ArithMachine
