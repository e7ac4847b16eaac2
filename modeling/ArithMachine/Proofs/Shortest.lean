import ArithMachine.Decimal.Shortest
import ArithMachine.Proofs.Rounding

/-!
# The shortest decimals

This module shows that the search for a shortest decimal ends with one that reads
back to the word, and that no decimal which does so has fewer significant digits.

The search looks at grids of decimals, the first with one digit before the size of
the word and each further one ten times finer, and on each grid only at the two
decimals next to the size.  There are three things to it.  First, the two neighbours
are enough: rounding keeps the order, so that a decimal of the grid that reads back
has on its side of the size a neighbour that does, too.  Second, a decimal with `n`
significant digits that reads back is matched by one on the grid of `n` digits, even
where its leading digit stands in another place than that of the size.  Third, on
the grid of nine digits the neighbour above the size is always near enough.
-/

namespace ArithMachine

section Shortest

namespace Decimal

section Grids

variable {word : Nat} {exponent : Int}

theorem digitsBelow_eq_floor (word : Nat) (exponent : Int) :
    digitsBelow word exponent =
      ⌊Value.size word / 10 ^ exponent⌋₊ := by
  rw [digitsBelow, stepNumerator, stepDenominator,
    ← Nat.floor_div_eq_div (K := ℚ), Value.size, ten_zpow_eq]
  congr 1
  rw [Nat.cast_mul, Nat.cast_mul, Value.cast_unitsOfOne, Nat.pow_eq,
    Nat.pow_eq]
  push_cast
  field_simp

/-- The size of a word lies between its two neighbours on a grid. -/
theorem between_neighbours (word : Nat) (exponent : Int) :
    toRat ⟨digitsBelow word exponent, exponent⟩ ≤ Value.size word ∧
      Value.size word < toRat ⟨digitsBelow word exponent + 1, exponent⟩ := by
  have hstep : (0 : ℚ) < 10 ^ exponent := by positivity
  have hsize : 0 ≤ Value.size word / 10 ^ exponent :=
    div_nonneg (Value.size_nonneg word) hstep.le
  rw [toRat, toRat, digitsBelow_eq_floor]
  constructor
  · exact (le_div_iff₀ hstep).mp (Nat.floor_le hsize)
  · have hless := Nat.lt_floor_add_one (Value.size word / 10 ^ exponent)
    push_cast
    exact (div_lt_iff₀ hstep).mp hless

/-- What is found on a grid reads back, and is one of the neighbours. -/
theorem of_onGrid?
    {d : Decimal} (h : onGrid? word exponent = some d) :
    d.nearestWord = word ∧ d.digits ≤ digitsBelow word exponent + 1 := by
  rw [onGrid?] at h
  split at h
  · rename_i hbelow
    split at h
    · rename_i habove
      cases h
      exact ⟨habove.1, le_rfl⟩
    · cases h
      exact ⟨hbelow, Nat.le_succ _⟩
  · split at h
    · rename_i habove
      cases h
      exact ⟨habove, le_rfl⟩
    · cases h

/-- A grid on which some decimal reads back has a neighbour of the size that does. -/
theorem isSome_onGrid?
    (digits : Nat) (h : nearestWord ⟨digits, exponent⟩ = word) :
    (onGrid? word exponent).isSome = true := by
  have hneighbour :
      nearestWord ⟨digitsBelow word exponent, exponent⟩ = word ∨
        nearestWord ⟨digitsBelow word exponent + 1, exponent⟩ = word := by
    obtain ⟨hbelow, habove⟩ := between_neighbours word exponent
    rcases Nat.lt_or_ge (digitsBelow word exponent) digits with hless | hge
    · right
      exact nearestWord_eq_of_between h
        (Or.inr ⟨habove.le, toRat_le_toRat_iff.mpr hless⟩)
    · left
      exact nearestWord_eq_of_between h
        (Or.inl ⟨toRat_le_toRat_iff.mpr hge, hbelow⟩)
  rw [onGrid?]
  split
  · split <;> rfl
  · rename_i hnot
    rw [if_pos (hneighbour.resolve_left hnot)]
    rfl

end Grids

section LeadingDigit

variable {word : Nat}

/-- The leading digit of the size of a word stands at its leading power. -/
theorem leadingExponent_spec (h : 0 < word) :
    10 ^ leadingExponent (Value.units word) ≤ Value.size word ∧
      Value.size word < 10 ^ (leadingExponent (Value.units word) + 1) := by
  -- Scaled by 10 ^ 45, the size has a whole part with as many digits as the leading power tells.
  let whole := Value.units word * Nat.pow 10 45 / Value.unitsOfOne
  have hfloor : whole = ⌊Value.size word * 10 ^ 45⌋₊ := by
    simp only [whole]
    rw [← Nat.floor_div_eq_div (K := ℚ), Value.size, Nat.cast_mul,
      Value.cast_unitsOfOne, Nat.pow_eq]
    congr 1
    push_cast
    ring
  have hscaled : 0 ≤ Value.size word * 10 ^ 45 :=
    mul_nonneg (Value.size_nonneg word) (by positivity)
  have hle : (whole : ℚ) ≤ Value.size word * 10 ^ 45 := by
    rw [hfloor]
    exact Nat.floor_le hscaled
  have hlt : Value.size word * 10 ^ 45 < whole + 1 := by
    rw [hfloor]
    exact Nat.lt_floor_add_one _
  have hpos : 0 < whole := by
    have hunits : 0 < Value.units word := by
      rw [Nat.pos_iff_ne_zero, Ne, Value.units_eq_zero_iff]
      exact h.ne'
    refine Nat.div_pos ?_ (by decide)
    calc
      Value.unitsOfOne ≤ Nat.pow 10 45 := by decide
      _ ≤ Value.units word * Nat.pow 10 45 := Nat.le_mul_of_pos_left _ hunits
  obtain ⟨n, hn, hlow, hhigh⟩ := exists_length_toDigits hpos
  have hlead : leadingExponent (Value.units word) = (n : Int) - 45 := by
    change ((Nat.toDigits 10 whole).length : Int) - 46 = (n : Int) - 45
    omega
  have hlow' : (10 : ℚ) ^ n ≤ whole := by exact_mod_cast hlow
  have hhigh' : (whole : ℚ) + 1 ≤ 10 ^ (n + 1) := by exact_mod_cast hhigh
  have hscale (m : Nat) :
      (10 : ℚ) ^ ((m : Int) - 45) = 10 ^ m / 10 ^ 45 := by
    rw [zpow_sub₀ (by norm_num), zpow_natCast]
    norm_cast
  rw [hlead, show (n : Int) - 45 + 1 = ((n + 1 : ℕ) : Int) - 45 by push_cast; ring, hscale,
    hscale, div_le_iff₀ (by positivity), lt_div_iff₀ (by positivity)]
  exact ⟨hlow'.trans hle, hlt.trans_le hhigh'⟩

end LeadingDigit

section Search

variable {word : Nat} {d : Decimal}

/-- A word stands for less than 2 ^ 24 times the distance to the next one. -/
theorem size_lt_gap (word : Nat) :
    Value.size word <
      2 ^ 24 * (Value.size (word + 1) - Value.size word) := by
  obtain ⟨shift, significand, rfl, hless, hnormal⟩ :
      ∃ shift significand,
        word = shift * 0x800000 + significand ∧ significand < 0x1000000 ∧
          (shift = 0 ∨ 0x800000 ≤ significand) :=
    ⟨word / 0x800000 - 1, word - (word / 0x800000 - 1) * 0x800000,
      by omega, by omega, by omega⟩
  have hunits := Value.units_of_shift hless.le hnormal
  have hnext := Value.units_of_shift_succ hless.le hnormal
  have hstep :
      Value.units (shift * 0x800000 + significand) + 2 ^ shift ≤
        Value.units (shift * 0x800000 + significand + 1) := by
    rw [hunits]
    linarith
  have hsmall :
      Value.units (shift * 0x800000 + significand) < 2 ^ 24 * 2 ^ shift := by
    rw [hunits]
    exact Nat.mul_lt_mul_of_pos_right hless (Nat.two_pow_pos shift)
  have hstep' :
      (Value.units (shift * 0x800000 + significand) : ℚ) + 2 ^ shift ≤
        Value.units (shift * 0x800000 + significand + 1) := by
    exact_mod_cast hstep
  have hsmall' :
      (Value.units (shift * 0x800000 + significand) : ℚ) <
        2 ^ 24 * 2 ^ shift := by
    exact_mod_cast hsmall
  rw [Value.size, Value.size, ← sub_div, ← mul_div_assoc]
  refine div_lt_div_of_pos_right ?_ (by positivity)
  linarith

/-- With nine digits, the neighbour above a size is closer to it than to the next word. -/
theorem nine_digits
    (hpos : 0 < word) (hfinite : word < Value.infinityWord) :
    (onGrid? word (leadingExponent (Value.units word) - 8)).isSome = true := by
  obtain ⟨hlead, -⟩ := leadingExponent_spec hpos
  generalize leadingExponent (Value.units word) = lead at hlead
  obtain ⟨hbelow, habove⟩ := between_neighbours word (lead - 8)
  have hstep :
      toRat ⟨digitsBelow word (lead - 8) + 1, lead - 8⟩ =
        toRat ⟨digitsBelow word (lead - 8), lead - 8⟩ +
          10 ^ lead / 10 ^ 8 := by
    rw [toRat, toRat, zpow_sub₀ (by norm_num), zpow_ofNat]
    push_cast
    ring
  have hgap := size_lt_gap word
  apply isSome_onGrid? (digitsBelow word (lead - 8) + 1)
  refine Nat.le_antisymm (nearestWord_le_of_lt_midpoint ?_)
    (le_nearestWord_of_size_le hfinite.le habove.le)
  rw [hstep, Value.midpoint]
  have hfine : (10 : ℚ) ^ lead / 10 ^ 8 ≤ Value.size word / 10 ^ 8 :=
    div_le_div_of_nonneg_right hlead (by positivity)
  linarith

/-- A decimal that reads back is matched on the grid of as many digits as it has. -/
theorem isSome_onGrid?_of_digits
    {n : Nat}
    (hpos : 0 < word)
    (hword : d.nearestWord = word)
    (hdigits : d.digits < 10 ^ (n + 1)) :
    (onGrid? word (leadingExponent (Value.units word) - n)).isSome = true := by
  obtain ⟨hlead, -⟩ := leadingExponent_spec hpos
  generalize leadingExponent (Value.units word) = lead at hlead ⊢
  rcases lt_or_ge d.exponent (lead - n) with hfine | hcoarse
  · -- Its leading digit stands behind that of the size, and the leading power lies between the two.
    apply isSome_onGrid? (10 ^ n)
    have hpower : toRat ⟨10 ^ n, lead - n⟩ = 10 ^ lead := by
      rw [toRat_pow, Int.sub_add_cancel]
    have hless : (d.digits : ℚ) ≤ 10 ^ (n + 1) := by
      exact_mod_cast hdigits.le
    refine nearestWord_eq_of_between hword (Or.inl ⟨?_, ?_⟩)
    · calc
        d.toRat ≤ 10 ^ (n + 1) * 10 ^ d.exponent :=
          mul_le_mul_of_nonneg_right hless (by positivity)
        _ = 10 ^ (d.exponent + (n + 1)) := by
          rw [zpow_add₀ (by norm_num), mul_comm]
          norm_cast
        _ ≤ 10 ^ lead :=
          zpow_le_zpow_right₀ (by norm_num) (by omega)
        _ = toRat ⟨10 ^ n, lead - n⟩ := hpower.symm
    · rw [hpower]
      exact hlead
  · -- The decimal stands on the grid itself.
    obtain ⟨zeros, hzeros⟩ :=
      Int.eq_ofNat_of_zero_le (Int.sub_nonneg.mpr hcoarse)
    apply isSome_onGrid? (d.digits * 10 ^ zeros)
    rw [← hword]
    apply nearestWord_congr
    rw [toRat_mul_pow, show lead - n + zeros = d.exponent by omega]

/-- A decimal that reads back to a positive word has a digit that counts. -/
theorem digits_trim_pos
    (hpos : 0 < word) (hword : d.nearestWord = word) :
    0 < d.trim.digits := by
  rw [Nat.pos_iff_ne_zero]
  intro hzero
  have hvalue : d.toRat = 0 := by
    rw [← toRat_trim, toRat, hzero, Nat.cast_zero, zero_mul]
  have hle : d.nearestWord ≤ 0 :=
    nearestWord_le_of_le_size (hvalue.trans_le (Value.size_nonneg 0))
  omega

theorem digitsBelow_lt
    (hpos : 0 < word) (n : Nat) :
    digitsBelow word (leadingExponent (Value.units word) - n) <
      10 ^ (n + 1) := by
  obtain ⟨-, hlead⟩ := leadingExponent_spec hpos
  generalize leadingExponent (Value.units word) = lead at hlead ⊢
  obtain ⟨hbelow, -⟩ := between_neighbours word (lead - n)
  rw [← Nat.not_le, ← @toRat_le_toRat_iff (lead - n), not_le,
    toRat_pow]
  refine hbelow.trans_lt (hlead.trans_le ?_)
  exact zpow_le_zpow_right₀ (by norm_num) (by push_cast; omega)

/-- A search over numbers in order finds the first that has a result. -/
theorem of_findSome?_range
    {α : Type} {f : Nat → Option α} {n : Nat} {found : α}
    (h : (List.range n).findSome? f = some found) :
    ∃ k, f k = some found ∧ ∀ j < k, f j = none := by
  obtain ⟨before, k, after, hrange, hfound, hnone⟩ :=
    List.findSome?_eq_some_iff.mp h
  have hlength : before.length < n := by
    have := congrArg List.length hrange
    simp at this
    omega
  have hk : k = before.length := by
    have hplace := congrArg (·[before.length]?) hrange
    simpa [hlength] using hplace.symm
  have hbefore : before = List.range k := by
    have htake := congrArg (List.take before.length) hrange
    rw [List.take_range, List.take_left, Nat.min_eq_left hlength.le, ← hk] at htake
    exact htake.symm
  refine ⟨k, hfound, fun j hj => hnone j ?_⟩
  rw [hbefore]
  exact List.mem_range.mpr hj

/-- The search ends on the first grid that has a decimal which reads back. -/
theorem exists_shortest
    (hpos : 0 < word) (hfinite : word < Value.infinityWord) :
    ∃ (found : Decimal) (more : Nat),
      shortest word = found.trim ∧
      onGrid? word (leadingExponent (Value.units word) - more) = some found ∧
      ∀ fewer < more,
        onGrid? word (leadingExponent (Value.units word) - fewer) = none := by
  let onDigits (more : Nat) : Option Decimal :=
    onGrid? word (leadingExponent (Value.units word) - more)
  have hfound : ((List.range 9).findSome? onDigits).isSome = true := by
    rw [List.findSome?_isSome_iff]
    exact ⟨8, by decide, nine_digits hpos hfinite⟩
  obtain ⟨found, hfound⟩ := Option.isSome_iff_exists.mp hfound
  obtain ⟨more, hmore, hfirst⟩ := of_findSome?_range hfound
  refine ⟨found, more, ?_, hmore, hfirst⟩
  change (((List.range 9).findSome? onDigits).getD (exact word)).trim = found.trim
  rw [hfound, Option.getD_some]

/-- The search finds a decimal that reads back, with no more digits than any other that does. -/
theorem shortest_spec
    (hpos : 0 < word) (hfinite : word < Value.infinityWord) :
    (shortest word).nearestWord = word ∧
      ∀ d : Decimal, d.nearestWord = word →
        (shortest word).significant ≤ d.significant := by
  obtain ⟨found, more, hshortest, hfound, hfirst⟩ :=
    exists_shortest hpos hfinite
  obtain ⟨hword, hdigits⟩ := of_onGrid? hfound
  constructor
  · rw [hshortest, nearestWord_congr found.toRat_trim, hword]
  · intro d hd
    have hfew : (shortest word).significant ≤ more + 1 := by
      rw [hshortest, significant_trim]
      exact significant_le_of_le_pow
        (hdigits.trans (digitsBelow_lt hpos more))
    have htrim : d.trim.nearestWord = word := by
      rw [nearestWord_congr d.toRat_trim, hd]
    have hdigit := digits_trim_pos hpos hd
    obtain ⟨n, hn⟩ : ∃ n, d.significant = n + 1 := by
      refine Nat.exists_eq_succ_of_ne_zero ?_
      rw [significant, Ne, List.length_eq_zero_iff,
        Nat.digits_eq_nil_iff_eq_zero]
      exact hdigit.ne'
    have hless : d.trim.digits < 10 ^ (n + 1) := by
      rw [← Nat.digits_length_le_iff (by decide), ← significant, hn]
    have hgrid := isSome_onGrid?_of_digits hpos htrim hless
    have hmore : more ≤ n := by
      by_contra hless
      rw [hfirst n (Nat.lt_of_not_le hless)] at hgrid
      cases hgrid
    omega

end Search

end Decimal

end Shortest

end ArithMachine
