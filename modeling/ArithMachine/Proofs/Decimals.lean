import ArithMachine.Decimal.Basic
import Mathlib

/-!
# Decimals as numbers

A decimal stands for a rational number, and many decimals stand for the same one:
zeros behind its digits may be exchanged for a greater exponent.  How many digits
are significant does not depend on such zeros, and hence on the number alone.

The first digit of a decimal tells between which powers of ten the number lies.
-/

namespace ArithMachine

section Decimals

namespace Decimal

/-- The number that a decimal stands for. -/
def toRat (d : Decimal) : ℚ :=
  d.digits * 10 ^ d.exponent

theorem ten_zpow_eq (exponent : Int) :
    (10 : ℚ) ^ exponent =
      10 ^ exponent.toNat / 10 ^ (-exponent).toNat := by
  rcases Int.le_total 0 exponent with hpos | hneg
  · obtain ⟨n, rfl⟩ := Int.eq_ofNat_of_zero_le hpos
    simp
  · obtain ⟨n, hn⟩ := Int.eq_ofNat_of_zero_le (Int.neg_nonneg.mpr hneg)
    obtain rfl : exponent = -(n : Int) := by omega
    simp

theorem toRat_mul_pow (digits : Nat) (exponent : Int) (zeros : Nat) :
    toRat ⟨digits * 10 ^ zeros, exponent⟩ =
      toRat ⟨digits, exponent + zeros⟩ := by
  rw [toRat, toRat, zpow_add₀ (by norm_num), zpow_natCast]
  push_cast
  ring

theorem toRat_pow (zeros : Nat) (exponent : Int) :
    toRat ⟨10 ^ zeros, exponent⟩ = 10 ^ (exponent + zeros) := by
  rw [← Nat.one_mul (10 ^ zeros), toRat_mul_pow, toRat, Nat.cast_one, one_mul]

theorem toRat_mul_ten (digits : Nat) (exponent : Int) :
    toRat ⟨10 * digits, exponent⟩ = toRat ⟨digits, exponent + 1⟩ := by
  rw [Nat.mul_comm]
  exact toRat_mul_pow digits exponent 1

theorem toRat_le_toRat_iff
    {exponent : Int} {m n : Nat} :
    toRat ⟨m, exponent⟩ ≤ toRat ⟨n, exponent⟩ ↔ m ≤ n := by
  have hstep : (0 : ℚ) < 10 ^ exponent := by positivity
  rw [toRat, toRat, mul_le_mul_iff_of_pos_right hstep]
  exact Nat.cast_le

section SignificantDigits

/-- How many digits of a decimal count, which leading and trailing zeros do not. -/
def significant (d : Decimal) : Nat :=
  (Nat.digits 10 d.trim.digits).length

theorem trim_mul_ten
    {digits : Nat} (h : 0 < digits) (exponent : Int) :
    trim ⟨10 * digits, exponent⟩ = trim ⟨digits, exponent + 1⟩ := by
  have hzeros : 10 * digits ≠ 0 ∧ 10 * digits % 10 = 0 := by omega
  rw [trim]
  simp only [if_pos hzeros, Nat.mul_div_cancel_left digits (show 0 < 10 by decide)]

theorem trim_of_not_dvd
    {d : Decimal} (h : ¬ (d.digits ≠ 0 ∧ d.digits % 10 = 0)) :
    d.trim = d := by
  rw [trim, if_neg h]

/-- Trimming changes neither the number nor whether it is zero, and leaves no trailing zero. -/
theorem trim_spec (d : Decimal) :
    d.trim.toRat = d.toRat ∧ d.trim.digits ≤ d.digits ∧
      (0 < d.digits → d.trim.digits % 10 ≠ 0) := by
  fun_induction trim d with
  | case1 d h ih =>
      obtain ⟨hvalue, hle, hlast⟩ := ih
      have hdigits : 10 * (d.digits / 10) = d.digits := by omega
      refine ⟨?_, hle.trans (Nat.div_le_self _ _), fun _ => hlast (by
        dsimp only
        omega)⟩
      rw [hvalue, ← toRat_mul_ten, hdigits]
  | case2 d h => exact ⟨rfl, le_rfl, by omega⟩

theorem toRat_trim (d : Decimal) : d.trim.toRat = d.toRat :=
  d.trim_spec.1

theorem significant_trim (d : Decimal) :
    d.trim.significant = d.significant := by
  have htrim : d.trim.trim = d.trim := by
    apply trim_of_not_dvd
    rintro ⟨hne, hzero⟩
    have hpos := Nat.pos_of_ne_zero hne
    exact d.trim_spec.2.2 (hpos.trans_le d.trim_spec.2.1) hzero
  rw [significant, htrim, significant]

theorem significant_le
    {d : Decimal} {n : Nat} (h : d.digits < 10 ^ n) :
    d.significant ≤ n :=
  (Nat.digits_length_le_iff (by decide) _).mpr
    (d.trim_spec.2.1.trans_lt h)

theorem significant_mul_ten (digits : Nat) (exponent : Int) :
    significant ⟨10 * digits, exponent⟩ =
      significant ⟨digits, exponent + 1⟩ := by
  rcases Nat.eq_zero_or_pos digits with rfl | hpos
  · simp [significant, trim_of_not_dvd]
  · rw [significant, trim_mul_ten hpos, significant]

/-- A power of ten has a single significant digit, and no more digits than the numbers before it. -/
theorem significant_le_of_le_pow
    {d : Decimal} {n : Nat} (h : d.digits ≤ 10 ^ (n + 1)) :
    d.significant ≤ n + 1 := by
  rcases Nat.lt_or_eq_of_le h with hless | hpower
  · exact significant_le hless
  · have htenfold : d = ⟨10 * 10 ^ n, d.exponent⟩ := by
      rw [← Nat.pow_succ', ← hpower]
    rw [htenfold, significant_mul_ten]
    exact significant_le (Nat.pow_lt_pow_succ (by decide))

theorem significant_mul_pow
    (digits : Nat) (exponent : Int) (zeros : Nat) :
    significant ⟨digits * 10 ^ zeros, exponent⟩ =
      significant ⟨digits, exponent + zeros⟩ := by
  induction zeros generalizing exponent with
  | zero => simp
  | succ zeros ih =>
      have hdigits :
          digits * 10 ^ (zeros + 1) = 10 * (digits * 10 ^ zeros) := by
        rw [Nat.pow_succ]
        ring
      rw [hdigits, significant_mul_ten, ih]
      congr 2
      push_cast
      ring

/-- How many digits are significant depends on the number alone. -/
theorem significant_congr
    {d d' : Decimal} (h : d.toRat = d'.toRat) :
    d.significant = d'.significant := by
  wlog hle : d.exponent ≤ d'.exponent
  · exact (this h.symm (le_of_not_ge hle)).symm
  obtain ⟨zeros, hzeros⟩ : ∃ zeros : ℕ, d.exponent + zeros = d'.exponent :=
    ⟨(d'.exponent - d.exponent).toNat, by omega⟩
  have hvalue : toRat ⟨d'.digits * 10 ^ zeros, d.exponent⟩ = d.toRat := by
    rw [toRat_mul_pow, hzeros, h]
  have hdigits : d.digits = d'.digits * 10 ^ zeros :=
    Nat.le_antisymm (toRat_le_toRat_iff.mp hvalue.ge)
      (toRat_le_toRat_iff.mp hvalue.le)
  calc
    d.significant = significant ⟨d'.digits * 10 ^ zeros, d.exponent⟩ := by
      rw [← hdigits]
    _ = significant ⟨d'.digits, d.exponent + zeros⟩ :=
      significant_mul_pow _ _ _
    _ = d'.significant := by rw [hzeros]

end SignificantDigits

section LeadingDigit

/-- A number lies between the powers of ten that its count of digits tells. -/
theorem exists_length_toDigits
    {n : Nat} (h : 0 < n) :
    ∃ more : Nat,
      (Nat.toDigits 10 n).length = more + 1 ∧
        10 ^ more ≤ n ∧ n < 10 ^ (more + 1) := by
  obtain ⟨more, hmore⟩ : ∃ more, (Nat.toDigits 10 n).length = more + 1 :=
    Nat.exists_eq_succ_of_ne_zero
      (List.length_pos_iff.mpr Nat.toDigits_ne_nil).ne'
  refine ⟨more, hmore, ?_, ?_⟩
  · rcases Nat.eq_zero_or_pos more with rfl | hpos
    · exact h
    · rw [← Nat.not_lt, ← Nat.length_toDigits_le_iff (by decide) hpos]
      omega
  · exact (Nat.length_toDigits_le_iff (by decide) (Nat.succ_pos more)).mp hmore.le

/-- A decimal lies between the power of its first digit and the next one. -/
theorem lead_spec
    {d : Decimal} (h : 0 < d.digits) :
    10 ^ d.lead ≤ d.toRat ∧ d.toRat < 10 ^ (d.lead + 1) := by
  obtain ⟨n, hn, hlow, hhigh⟩ := exists_length_toDigits h
  have hlead : d.lead = d.exponent + n := by
    rw [lead, hn]
    omega
  have hnext : d.lead + 1 = d.exponent + ((n + 1 : ℕ) : Int) := by
    rw [hlead]
    omega
  rw [hnext, hlead, ← toRat_pow, ← toRat_pow]
  exact ⟨toRat_le_toRat_iff.mpr hlow,
    (lt_iff_lt_of_le_iff_le toRat_le_toRat_iff).mpr hhigh⟩

end LeadingDigit

end Decimal

end Decimals

end ArithMachine
