import ArithMachine.Value.Order
import Mathlib

/-!
# Comparing values

Two values that are equal as numbers have equal words, but for two exceptions: a
NaN is equal to nothing, and the two zeros are equal.

This comes from the sizes of magnitude words.  The next word is always of a greater
size, where the exponent stays the same as well as where it goes up, so that words
of one size are one word.
-/

namespace ArithMachine

section Comparison

namespace Value

/-- The size of a normal magnitude word, from its exponent and its fraction. -/
theorem units_of_fields
    {fraction : Nat}
    (exponent : Nat)
    (h : fraction < 0x800000) :
    units ((exponent + 1) * 0x800000 + fraction) =
      (0x800000 + fraction) * 2 ^ exponent := by
  have hnormal : ¬ (exponent + 1) * 0x800000 + fraction < 0x800000 := by
    omega
  have hexponent :
      ((exponent + 1) * 0x800000 + fraction) / 0x800000 - 1 = exponent := by
    omega
  have hfraction :
      ((exponent + 1) * 0x800000 + fraction) % 0x800000 = fraction := by
    omega
  rw [units, if_neg hnormal, hexponent, hfraction]
  rfl

/-- The next magnitude word stands for a greater size. -/
theorem units_lt_succ (word : Nat) :
    units word < units (word + 1) := by
  rcases Nat.lt_trichotomy (word + 1) 0x800000 with
    hsubnormal | hleast | hnormal
  · rw [units, units, if_pos (by omega), if_pos hsubnormal]
    exact Nat.lt_succ_self word
  · obtain rfl : word = 0x7fffff := by omega
    decide
  · obtain ⟨exponent, fraction, hfraction, rfl⟩ :
        ∃ exponent fraction,
          fraction < 0x800000 ∧
            word = (exponent + 1) * 0x800000 + fraction :=
      ⟨word / 0x800000 - 1, word % 0x800000, by omega, by omega⟩
    rw [units_of_fields exponent hfraction]
    by_cases hcarry : fraction + 1 < 0x800000
    · rw [Nat.add_assoc, units_of_fields exponent hcarry]
      exact Nat.mul_lt_mul_of_pos_right (by omega) (Nat.two_pow_pos _)
    · -- The fraction is full, and the word goes on with the next exponent.
      have hnext :
          (exponent + 1) * 0x800000 + fraction + 1 =
            (exponent + 1 + 1) * 0x800000 + 0 := by
        omega
      rw [hnext, units_of_fields (exponent + 1) (by decide), Nat.pow_succ,
        Nat.mul_comm (2 ^ exponent) 2, ← Nat.mul_assoc]
      exact Nat.mul_lt_mul_of_pos_right (by omega) (Nat.two_pow_pos _)

theorem strictMono_units : StrictMono units :=
  strictMono_nat_of_lt_succ units_lt_succ

theorem units_eq_zero_iff
    {word : Nat} :
    units word = 0 ↔ word = 0 :=
  strictMono_units.injective.eq_iff' rfl

/-- A place on the number line is a size and a sign, except that zero has one place. -/
theorem signed_eq_iff
    {s t : Bool} {m n : Nat} :
    signed s m = signed t n ↔ m = n ∧ (s = t ∨ m = 0) := by
  cases s <;> cases t <;> simp [signed] <;> omega

/-- The zeros are the values without magnitude. -/
theorem exists_eq_zero_iff
    {v : Value} :
    (∃ s, v = zero s) ↔ v.magnitude = 0 := by
  constructor
  · rintro ⟨s, rfl⟩
    exact magnitude_ofParts s (by decide)
  · intro h
    refine ⟨v.negative, ?_⟩
    rw [zero, ← h, ofParts_parts]

theorem bits_eq_iff
    {a b : Value} :
    a.bits = b.bits ↔
      a.negative = b.negative ∧ a.magnitude = b.magnitude := by
  constructor
  · intro h
    obtain rfl : a = b := Value.ext h
    exact ⟨rfl, rfl⟩
  · rintro ⟨hnegative, hmagnitude⟩
    rw [← ofParts_parts a, ← ofParts_parts b, hnegative, hmagnitude]

theorem numEq_eq_true_iff_signed
    {a b : Value} :
    a.numEq b = true ↔
      a.isNaN = false ∧ b.isNaN = false ∧
        signed a.negative (units a.magnitude) =
          signed b.negative (units b.magnitude) := by
  unfold numEq compare? position?
  cases a.isNaN <;> cases b.isNaN <;> simp

/-- Values are equal as numbers if neither is a NaN and their words are equal or both zeros. -/
theorem numEq_eq_true_iff
    {a b : Value} :
    a.numEq b = true ↔
      a.isNaN = false ∧ b.isNaN = false ∧
        (a.bits = b.bits ∨ (∃ s, a = zero s) ∧ ∃ t, b = zero t) := by
  rw [numEq_eq_true_iff_signed, signed_eq_iff, strictMono_units.injective.eq_iff,
    units_eq_zero_iff, bits_eq_iff, exists_eq_zero_iff, exists_eq_zero_iff]
  refine and_congr_right fun _ => and_congr_right fun _ => ?_
  constructor
  · rintro ⟨hmagnitude, hnegative | hzero⟩
    · exact Or.inl ⟨hnegative, hmagnitude⟩
    · exact Or.inr ⟨hzero, hmagnitude ▸ hzero⟩
  · rintro (⟨hnegative, hmagnitude⟩ | ⟨ha, hb⟩)
    · exact ⟨hmagnitude, Or.inl hnegative⟩
    · exact ⟨ha.trans hb.symm, Or.inr ha⟩

end Value

end Comparison

end ArithMachine
