/-!
# Binary32 values

A value is a word of 32 bits: a sign bit, eight exponent bits and twenty-three
fraction bits.

The 31 bits below the sign, read as one number, are the magnitude word of the
value.  Magnitude words grow with the size of the value: zero, the subnormal
values, the normal values and infinity follow one another, and whatever lies
above infinity is a NaN.

Every finite value is a whole multiple of the least positive one, 2 ^ (-149).
`units` counts that multiple, so that sizes are natural numbers and can be
compared, added and multiplied without rounding.
-/

namespace ArithMachine

section BinaryValue

/--
A binary32 value, kept as its word.

Equality is equality of words: it separates the two zeros, and NaNs whose
payloads differ.  The numeric comparison is `Value.numEq`.
-/
@[ext] structure Value where
  bits : UInt32
deriving DecidableEq, Repr, Inhabited

namespace Value

/-- The sign bit, set for negative values and also meaningful for zeros and NaNs. -/
def negative (v : Value) : Bool :=
  decide (0x80000000 ≤ v.bits.toNat)

/-- The bits below the sign, as one number. -/
def magnitude (v : Value) : Nat :=
  v.bits.toNat % 0x80000000

/-- The value with the given sign and magnitude word. -/
def ofParts (negative : Bool) (magnitude : Nat) : Value :=
  ⟨UInt32.ofNat (if negative then 0x80000000 + magnitude else magnitude)⟩

theorem magnitude_lt (v : Value) : v.magnitude < 0x80000000 :=
  Nat.mod_lt _ (by decide)

@[simp] theorem ofParts_parts (v : Value) :
    ofParts v.negative v.magnitude = v := by
  have hv : v.bits.toNat < 2 ^ 32 := v.bits.toNat_lt
  apply Value.ext
  apply UInt32.toNat_inj.mp
  simp only [ofParts, negative, magnitude, UInt32.toNat_ofNat', decide_eq_true_eq]
  split <;> omega

theorem negative_ofParts (s : Bool) {n : Nat} (h : n < 0x80000000) :
    (ofParts s n).negative = s := by
  cases s <;> simp [ofParts, negative] <;> omega

theorem magnitude_ofParts (s : Bool) {n : Nat} (h : n < 0x80000000) :
    (ofParts s n).magnitude = n := by
  cases s <;> simp [ofParts, magnitude] <;> omega

/-- The magnitude word of infinity: all exponent bits set and no fraction bit. -/
def infinityWord : Nat :=
  0x7f800000

/-- The infinity of the given sign. -/
def infinity (negative : Bool) : Value :=
  ofParts negative infinityWord

/-- The zero of the given sign. -/
def zero (negative : Bool) : Value :=
  ofParts negative 0

/--
The quiet NaN without sign and payload, the answer to every invalid operation.

Which NaN comes out of an operation is left open by the format, in its sign and
in its payload.  This word is one choice among them, made once for all operations;
`numEq` and the text of a value do not tell it from the others.
-/
def nan : Value :=
  ofParts false (infinityWord + 0x400000)

/-- Magnitude words above that of infinity are NaNs. -/
def isNaN (v : Value) : Bool :=
  decide (infinityWord < v.magnitude)

/-- The value with its sign bit flipped, whatever it denotes. -/
def negate (v : Value) : Value :=
  ofParts (!v.negative) v.magnitude

@[simp] theorem negate_negate (v : Value) : v.negate.negate = v := by
  simp [negate, negative_ofParts _ v.magnitude_lt, magnitude_ofParts _ v.magnitude_lt]

/--
The size that a magnitude word stands for, counted in units of 2 ^ (-149).

Below 0x800000 the word is a subnormal fraction and counts itself.  From there on
the exponent field is positive: a leading bit joins the fraction, and each
further step of the exponent doubles the size.  At `infinityWord` the same rule
gives 2 ^ 277, which lies beyond every finite size.
-/
def units (word : Nat) : Nat :=
  if word < 0x800000 then
    word
  else
    (0x800000 + word % 0x800000) * Nat.pow 2 (word / 0x800000 - 1)

/-- How many units make up one. -/
def unitsOfOne : Nat :=
  Nat.pow 2 149

/-- What a word denotes; finite sizes are counted in units of 2 ^ (-149). -/
inductive Datum where
  | nan
  | infinite (negative : Bool)
  | finite (negative : Bool) (units : Nat)
deriving DecidableEq, Repr

/-- The reading of a word. -/
def datum (v : Value) : Datum :=
  if infinityWord < v.magnitude then
    .nan
  else if v.magnitude = infinityWord then
    .infinite v.negative
  else
    .finite v.negative (units v.magnitude)

end Value

end BinaryValue

end ArithMachine
