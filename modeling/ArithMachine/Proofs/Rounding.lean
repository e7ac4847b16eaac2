import ArithMachine.Proofs.Comparison
import ArithMachine.Proofs.Decimals

/-!
# Rounding to the nearest value

`Value.nearestWord` rounds the significand of a quotient and writes exponent and
fraction at once.  This module says what comes out.

Between the sizes of two words that follow one another lies their midpoint.  A size
is rounded to a word or one below it if it is less than the midpoint above the word,
and also if it is the midpoint and the word is even: `nearestWord_le_iff`.  From this
we derive that rounding does not change the order of sizes, that it leaves the sizes
of words alone, and that it yields the nearest word in the sense of `RoundsTo`, with
ties to the even one.

The word of infinity takes part in this with the size 2 ^ 128, which is where the
value after the greatest finite one would stand.
-/

namespace ArithMachine

section Rounding

/-- The integer nearest to a quotient is at most a half away, and a half only if it is even. -/
theorem roundHalfEven_bounds
    (num : Nat) {den : Nat} (h : 0 < den) :
    (2 * num < den * (2 * roundHalfEven num den + 1) ∨
      2 * num = den * (2 * roundHalfEven num den + 1) ∧
        roundHalfEven num den % 2 = 0) ∧
    (den * (2 * roundHalfEven num den) < 2 * num + den ∨
      den * (2 * roundHalfEven num den) = 2 * num + den ∧
        roundHalfEven num den % 2 = 0) := by
  have hnum : den * (num / den) + num % den = num := Nat.div_add_mod num den
  have hrest : num % den < den := Nat.mod_lt num h
  unfold roundHalfEven
  generalize num / den = quotient at hnum ⊢
  generalize num % den = rest at hnum hrest ⊢
  subst hnum
  simp only
  split
  · rename_i hdown
    constructor
    · rcases hdown with hless | ⟨htie, heven⟩
      · left; nlinarith
      · right; exact ⟨by nlinarith, heven⟩
    · left; nlinarith
  · rename_i hup
    rw [not_or, not_and] at hup
    constructor
    · left; nlinarith
    · rcases Nat.lt_or_ge den (2 * rest) with hmore | hless
      · left; nlinarith
      · have htie : 2 * rest = den := by omega
        right
        exact ⟨by nlinarith, by have := hup.2 htie; omega⟩

/-- The integer nearest to a quotient is the whole part or the number after it. -/
theorem roundHalfEven_mem (num den : Nat) :
    num / den ≤ roundHalfEven num den ∧
      roundHalfEven num den ≤ num / den + 1 := by
  unfold roundHalfEven
  simp only
  split <;> omega

namespace Value

/-- Exponent and significand of a word; the significand may also be the first too large one. -/
theorem units_of_shift
    {shift significand : Nat}
    (hle : significand ≤ 0x1000000)
    (hnormal : shift = 0 ∨ 0x800000 ≤ significand) :
    units (shift * 0x800000 + significand) = significand * 2 ^ shift := by
  rcases Nat.lt_or_ge significand 0x800000 with hsubnormal | hge
  · obtain rfl : shift = 0 := by omega
    rw [Nat.zero_mul, Nat.zero_add, units, if_pos hsubnormal, Nat.pow_zero,
      Nat.mul_one]
  · rcases Nat.lt_or_eq_of_le hle with hless | rfl
    · have hword :
          shift * 0x800000 + significand =
            (shift + 1) * 0x800000 + (significand - 0x800000) := by
        omega
      rw [hword, units_of_fields shift (by omega), Nat.add_sub_cancel' hge]
    · have hword :
          shift * 0x800000 + 0x1000000 = (shift + 1 + 1) * 0x800000 + 0 := by
        omega
      rw [hword, units_of_fields (shift + 1) (by decide), Nat.pow_succ]
      ring

/-- How many units lie between a significand and the next one, at least. -/
theorem units_of_shift_succ
    {shift significand : Nat}
    (hle : significand ≤ 0x1000000)
    (hnormal : shift = 0 ∨ 0x800000 ≤ significand) :
    (significand + 1) * 2 ^ shift ≤
      units (shift * 0x800000 + significand + 1) := by
  rcases Nat.lt_or_eq_of_le hle with hless | rfl
  · rw [Nat.add_assoc, units_of_shift hless (by omega)]
  · have hword :
        shift * 0x800000 + 0x1000000 + 1 =
          (shift + 1 + 1) * 0x800000 + 1 := by
      omega
    rw [hword, units_of_fields (shift + 1) (by decide), Nat.pow_succ]
    nlinarith [Nat.two_pow_pos shift]

/-- The significand of a size has at most 24 bits, and 24 bits where it is shifted. -/
theorem significand_bounds
    (num : Nat) {den : Nat} (h : 0 < den) :
    let shift := (num / den).log2 - 23
    let significand := roundHalfEven num (den * 2 ^ shift)
    significand ≤ 0x1000000 ∧
      (shift = 0 ∨
        0x800000 ≤ significand ∧ 0x800000 * (den * 2 ^ shift) ≤ num) := by
  intro shift significand
  have hden : 0 < den * 2 ^ shift := Nat.mul_pos h (Nat.two_pow_pos shift)
  obtain ⟨hge, hle⟩ := roundHalfEven_mem num (den * 2 ^ shift)
  have hlog : num / den < 2 ^ ((num / den).log2 + 1) := Nat.lt_log2_self
  constructor
  · have hless : num / den < 0x1000000 * 2 ^ shift := by
      calc
        num / den < 2 ^ ((num / den).log2 + 1) := hlog
        _ ≤ 2 ^ (24 + shift) := Nat.pow_le_pow_right (by decide) (by omega)
        _ = 0x1000000 * 2 ^ shift := by rw [Nat.pow_add]
    have hwhole : num / (den * 2 ^ shift) < 0x1000000 := by
      rw [← Nat.div_div_eq_div_mul]
      exact Nat.div_lt_of_lt_mul (by rwa [Nat.mul_comm] at hless)
    omega
  · rcases Nat.eq_zero_or_pos shift with hzero | hpos
    · exact Or.inl hzero
    · right
      have hquotient : num / den ≠ 0 := by
        intro hzero
        simp [shift, hzero] at hpos
      have hmore : 0x800000 * 2 ^ shift ≤ num / den := by
        calc
          0x800000 * 2 ^ shift = 2 ^ (23 + shift) := by rw [Nat.pow_add]
          _ = 2 ^ (num / den).log2 := by congr 1; omega
          _ ≤ num / den := Nat.log2_self_le hquotient
      have hnum : 0x800000 * (den * 2 ^ shift) ≤ num := by
        calc
          0x800000 * (den * 2 ^ shift) = 0x800000 * 2 ^ shift * den := by ring
          _ ≤ num / den * den := Nat.mul_le_mul_right den hmore
          _ ≤ num := Nat.div_mul_le_self num den
      refine ⟨?_, hnum⟩
      exact ((Nat.le_div_iff_mul_le hden).mpr hnum).trans hge

/-- Twice the midpoint between a word and the next one, in units. -/
def doubleMidpoint (word : Nat) : Nat :=
  units word + units (word + 1)

theorem strictMono_doubleMidpoint : StrictMono doubleMidpoint :=
  strictMono_units.add fun _ _ h =>
    strictMono_units (Nat.add_lt_add_right h 1)

section Neighbours

variable {num den : Nat}

/-- A size lies below the midpoint above the word to which it is rounded, or at it. -/
theorem scaledWord_above
    (h : 0 < den) :
    2 * num < den * doubleMidpoint (scaledWord num den) ∨
      2 * num = den * doubleMidpoint (scaledWord num den) ∧
        scaledWord num den % 2 = 0 := by
  obtain ⟨hle, hnormal⟩ := significand_bounds num h
  have hnormal' := hnormal.imp_right And.left
  unfold scaledWord
  simp only
  generalize (num / den).log2 - 23 = shift at hle hnormal hnormal' ⊢
  have hden : 0 < den * 2 ^ shift := Nat.mul_pos h (Nat.two_pow_pos shift)
  obtain ⟨habove, -⟩ := roundHalfEven_bounds num hden
  generalize roundHalfEven num (den * 2 ^ shift) = significand at hle hnormal hnormal' habove ⊢
  have hnext := units_of_shift_succ hle hnormal'
  have hmid :
      den * 2 ^ shift * (2 * significand + 1) ≤
        den * doubleMidpoint (shift * 0x800000 + significand) := by
    rw [doubleMidpoint, units_of_shift hle hnormal']
    nlinarith
  rcases habove with hless | ⟨htie, heven⟩
  · exact Or.inl (hless.trans_le hmid)
  · rcases Nat.lt_or_eq_of_le hmid with hmore | hsame
    · exact Or.inl (htie.trans_lt hmore)
    · exact Or.inr ⟨htie.trans hsame, by omega⟩

/-- A size lies above the midpoint below the word to which it is rounded, or at it. -/
theorem scaledWord_below
    (h : 0 < den)
    {word : Nat} (hword : scaledWord num den = word + 1) :
    den * doubleMidpoint word < 2 * num ∨
      den * doubleMidpoint word = 2 * num ∧ word % 2 = 1 := by
  obtain ⟨hle, hnormal⟩ := significand_bounds num h
  have hnormal' := hnormal.imp_right And.left
  unfold scaledWord at hword
  simp only at hword
  generalize (num / den).log2 - 23 = shift at hword hle hnormal hnormal'
  have hden : 0 < den * 2 ^ shift := Nat.mul_pos h (Nat.two_pow_pos shift)
  obtain ⟨-, hbelow⟩ := roundHalfEven_bounds num hden
  generalize roundHalfEven num (den * 2 ^ shift) = significand
    at hword hle hnormal hnormal' hbelow
  have hunits : units (word + 1) = significand * 2 ^ shift := by
    rw [← hword, units_of_shift hle hnormal']
  by_cases hleast : 0 < shift ∧ significand = 0x800000
  · -- Below the least significand the distance is half as wide, but no size that is shifted is less.
    obtain ⟨hshift, rfl⟩ := hleast
    have hnum : 0x800000 * (den * 2 ^ shift) ≤ num :=
      (hnormal.resolve_left (by omega)).2
    have hless := units_lt_succ word
    rw [hunits] at hless
    left
    calc
      den * doubleMidpoint word =
          den * units word + den * (0x800000 * 2 ^ shift) := by
        rw [doubleMidpoint, hunits, Nat.mul_add]
      _ < den * (0x800000 * 2 ^ shift) + den * (0x800000 * 2 ^ shift) :=
        Nat.add_lt_add_right (Nat.mul_lt_mul_of_pos_left hless h) _
      _ ≤ 2 * num := by linarith
  · obtain ⟨before, rfl⟩ : ∃ before, significand = before + 1 :=
      ⟨significand - 1, by omega⟩
    have hbefore : units word = before * 2 ^ shift := by
      rw [show word = shift * 0x800000 + before by omega,
        units_of_shift (by omega) (by omega)]
    have hmid :
        den * doubleMidpoint word + den * 2 ^ shift =
          den * 2 ^ shift * (2 * (before + 1)) := by
      rw [doubleMidpoint, hunits, hbefore]
      ring
    rcases hbelow with hless | ⟨htie, heven⟩
    · left; omega
    · right; omega

/-- A size is rounded to a word or one below it if it is below the midpoint above the word. -/
theorem scaledWord_le_iff
    (h : 0 < den) (word : Nat) :
    scaledWord num den ≤ word ↔
      2 * num < den * doubleMidpoint word ∨
        2 * num = den * doubleMidpoint word ∧ word % 2 = 0 := by
  constructor
  · intro hle
    rcases Nat.lt_or_eq_of_le hle with hless | rfl
    · have hmid :
          den * doubleMidpoint (scaledWord num den) <
            den * doubleMidpoint word :=
        Nat.mul_lt_mul_of_pos_left (strictMono_doubleMidpoint hless) h
      rcases scaledWord_above h with habove | ⟨htie, -⟩
      · exact Or.inl (habove.trans hmid)
      · exact Or.inl (htie.trans_lt hmid)
    · exact scaledWord_above h
  · intro hbelow
    by_contra hgreater
    obtain ⟨before, hbefore⟩ : ∃ before, scaledWord num den = before + 1 :=
      ⟨scaledWord num den - 1, by omega⟩
    have hmid : den * doubleMidpoint word ≤ den * doubleMidpoint before :=
      Nat.mul_le_mul_left den
        (strictMono_doubleMidpoint.monotone (by omega))
    rcases scaledWord_below h hbefore with hless | ⟨htie, hodd⟩
    · omega
    · -- A size at the midpoint above `word` would be at that above `before`, of the other parity.
      have hsame : den * doubleMidpoint word = den * doubleMidpoint before := by
        omega
      have hword : word = before :=
        strictMono_doubleMidpoint.injective (Nat.eq_of_mul_eq_mul_left h hsame)
      omega

end Neighbours

section Sizes

/-- The number that a magnitude word stands for. -/
def size (word : Nat) : ℚ :=
  units word / 2 ^ 149

theorem cast_unitsOfOne : (unitsOfOne : ℚ) = 2 ^ 149 :=
  Nat.cast_pow 2 149

/-- The number halfway between a word and the next one. -/
def midpoint (word : Nat) : ℚ :=
  (size word + size (word + 1)) / 2

theorem size_nonneg (word : Nat) : 0 ≤ size word := by
  unfold size
  positivity

theorem strictMono_size : StrictMono size := by
  intro a b h
  have hunits : (units a : ℚ) < units b := by
    exact_mod_cast strictMono_units h
  exact div_lt_div_of_pos_right hunits (by positivity)

/-- The words that a number can be rounded to are those up to the midpoint above them. -/
theorem nearestWord_le_iff
    {num den word : Nat} {x : ℚ}
    (hden : 0 < den) (hx : x = num / den / 2 ^ 149)
    (hword : word < infinityWord) :
    nearestWord num den ≤ word ↔
      x < midpoint word ∨ x = midpoint word ∧ Even word := by
  have hpos : (0 : ℚ) < den * 2 ^ 149 * 2 := by positivity
  have hnum : x * (den * 2 ^ 149 * 2) = ((2 * num : ℕ) : ℚ) := by
    rw [hx]
    push_cast
    field_simp
  have hmid :
      midpoint word * (den * 2 ^ 149 * 2) =
        ((den * doubleMidpoint word : ℕ) : ℚ) := by
    rw [midpoint, size, size, doubleMidpoint]
    push_cast
    field_simp
  rw [nearestWord, min_le_iff, or_iff_right (Nat.not_le.mpr hword),
    scaledWord_le_iff hden, Nat.even_iff,
    ← mul_lt_mul_iff_of_pos_right hpos, ← mul_left_inj' hpos.ne', hnum, hmid]
  norm_cast

/--
A number is rounded to a word: no other is nearer, and where another is as near, the
word is the even one.
-/
structure RoundsTo (x : ℚ) (word : Nat) : Prop where
  le_infinity : word ≤ infinityWord
  nearest : ∀ other ≤ infinityWord, |x - size word| ≤ |x - size other|
  even :
    ∀ other ≤ infinityWord, other ≠ word →
      |x - size word| = |x - size other| → Even word

theorem abs_sub_le_of_le_mid
    {x a b : ℚ} (hab : a < b) (hx : x ≤ (a + b) / 2) :
    |x - a| ≤ |x - b| ∧ (|x - a| = |x - b| → x = (a + b) / 2) := by
  rw [abs_of_neg (show x - b < 0 by linarith)]
  constructor
  · rw [abs_le]
    constructor <;> linarith
  · intro heq
    rcases abs_choice (x - a) with hsign | hsign
    · rw [hsign] at heq; linarith
    · rw [hsign] at heq; linarith

theorem abs_sub_le_of_mid_le
    {x a b : ℚ} (hab : a < b) (hx : (a + b) / 2 ≤ x) :
    |x - b| ≤ |x - a| ∧ (|x - b| = |x - a| → x = (a + b) / 2) := by
  have hmirror := abs_sub_le_of_le_mid (neg_lt_neg hab) (x := -x) (by linarith)
  rw [neg_sub_neg, neg_sub_neg, abs_sub_comm b, abs_sub_comm a] at hmirror
  refine ⟨hmirror.1, fun heq => ?_⟩
  have := hmirror.2 heq
  linarith

/-- Of two words that are as near, one between them is nearer, or one of the two is odd. -/
theorem RoundsTo.not_lt
    {x : ℚ} {word other : Nat}
    (h : RoundsTo x word) (hother : RoundsTo x other) :
    ¬ word < other := by
  intro hless
  have htie : |x - size word| = |x - size other| :=
    le_antisymm (h.nearest other hother.le_infinity)
      (hother.nearest word h.le_infinity)
  have heven : Even word := h.even other hother.le_infinity hless.ne' htie
  have heven' : Even other :=
    hother.even word h.le_infinity hless.ne htie.symm
  have hbetween : word + 1 < other := by
    rcases Nat.lt_or_eq_of_le hless with hlt | rfl
    · exact hlt
    · exact absurd heven' (Nat.not_even_iff_odd.mpr heven.add_one)
  have hfirst := strictMono_size (Nat.lt_succ_self word)
  have hsecond := strictMono_size hbetween
  have hnearest :=
    h.nearest (word + 1) (hbetween.le.trans hother.le_infinity)
  have hmiddle : x = (size word + size other) / 2 := by
    rcases abs_eq_abs.mp htie with hsame | hopposite
    · linarith
    · linarith
  rw [abs_of_pos (show 0 < x - size word by linarith), le_abs] at hnearest
  rcases hnearest with hnearest | hnearest
  · linarith
  · linarith

/-- No number is rounded to two words. -/
theorem RoundsTo.unique
    {x : ℚ} {word other : Nat}
    (h : RoundsTo x word) (hother : RoundsTo x other) :
    word = other :=
  Nat.le_antisymm (Nat.le_of_not_lt (hother.not_lt h))
    (Nat.le_of_not_lt (h.not_lt hother))

end Sizes

end Value

namespace Decimal

variable {d d' : Decimal} {word : Nat}

theorem denominator_pos (d : Decimal) : 0 < d.denominator :=
  Nat.pow_pos (by decide)

theorem toRat_eq (d : Decimal) :
    d.toRat = d.numerator / d.denominator / 2 ^ 149 := by
  have hnumerator :
      (d.numerator : ℚ) = d.digits * 10 ^ d.exponent.toNat * 2 ^ 149 := by
    rw [numerator, Nat.cast_mul, Value.cast_unitsOfOne, Nat.pow_eq]
    push_cast
    rfl
  have hdenominator : (d.denominator : ℚ) = 10 ^ (-d.exponent).toNat := by
    simp [denominator]
  rw [toRat, ten_zpow_eq, hnumerator, hdenominator]
  field_simp

theorem nearestWord_le_iff
    (hword : word < Value.infinityWord) :
    d.nearestWord ≤ word ↔
      d.toRat < Value.midpoint word ∨
        d.toRat = Value.midpoint word ∧ Even word :=
  Value.nearestWord_le_iff d.denominator_pos d.toRat_eq hword

/-- Rounding keeps the order of numbers. -/
theorem nearestWord_mono
    (h : d.toRat ≤ d'.toRat) :
    d.nearestWord ≤ d'.nearestWord := by
  rcases Nat.lt_or_ge d'.nearestWord Value.infinityWord with hless | hge
  · rw [nearestWord_le_iff hless]
    rcases (nearestWord_le_iff hless).mp le_rfl with hbelow | ⟨htie, heven⟩
    · exact Or.inl (h.trans_lt hbelow)
    · rw [htie] at h
      exact h.lt_or_eq.imp_right fun hsame => ⟨hsame, heven⟩
  · exact (Value.nearestWord_le _ _).trans hge

theorem nearestWord_congr
    (h : d.toRat = d'.toRat) :
    d.nearestWord = d'.nearestWord :=
  Nat.le_antisymm (nearestWord_mono h.le) (nearestWord_mono h.ge)

/-- A number up to the midpoint above a word is not rounded to a greater one. -/
theorem nearestWord_le_of_lt_midpoint
    (h : d.toRat < Value.midpoint word) :
    d.nearestWord ≤ word := by
  rcases Nat.lt_or_ge word Value.infinityWord with hless | hge
  · exact (nearestWord_le_iff hless).mpr (Or.inl h)
  · exact (Value.nearestWord_le _ _).trans hge

theorem nearestWord_le_of_le_size
    (h : d.toRat ≤ Value.size word) :
    d.nearestWord ≤ word := by
  apply nearestWord_le_of_lt_midpoint
  have hless := Value.strictMono_size (Nat.lt_succ_self word)
  unfold Value.midpoint
  linarith

theorem le_nearestWord_of_size_le
    (hword : word ≤ Value.infinityWord)
    (h : Value.size word ≤ d.toRat) :
    word ≤ d.nearestWord := by
  by_contra hgreater
  have hless : d.nearestWord < Value.infinityWord := by omega
  -- The number would not be beyond a midpoint that lies below the word.
  have hbelow : d.toRat ≤ Value.midpoint d.nearestWord := by
    rcases (nearestWord_le_iff hless).mp le_rfl with hless | ⟨htie, -⟩
    · exact hless.le
    · exact htie.le
  have hfirst := Value.strictMono_size (Nat.lt_succ_self d.nearestWord)
  have hnext :
      Value.size (d.nearestWord + 1) ≤ Value.size word :=
    Value.strictMono_size.monotone (by omega)
  unfold Value.midpoint at hbelow
  linarith

/-- Between a number that is rounded to a word and the size of the word, all numbers are. -/
theorem nearestWord_eq_of_between
    (hword : d.nearestWord = word)
    (h : d.toRat ≤ d'.toRat ∧ d'.toRat ≤ Value.size word ∨
      Value.size word ≤ d'.toRat ∧ d'.toRat ≤ d.toRat) :
    d'.nearestWord = word := by
  have hle : word ≤ Value.infinityWord := hword ▸ Value.nearestWord_le _ _
  rcases h with ⟨hge, hsize⟩ | ⟨hsize, hge⟩
  · exact Nat.le_antisymm (nearestWord_le_of_le_size hsize)
      (hword ▸ nearestWord_mono hge)
  · exact Nat.le_antisymm (hword ▸ nearestWord_mono hge)
      (le_nearestWord_of_size_le hle hsize)

/-- No word below is nearer to a number than the word that it is rounded to. -/
theorem abs_sub_le_of_lt_nearestWord
    {other : Nat} (hless : other < d.nearestWord) :
    |d.toRat - Value.size d.nearestWord| ≤ |d.toRat - Value.size other| ∧
      (|d.toRat - Value.size d.nearestWord| =
        |d.toRat - Value.size other| → Even d.nearestWord) := by
  obtain ⟨before, hbefore⟩ : ∃ before, d.nearestWord = before + 1 :=
    ⟨d.nearestWord - 1, by omega⟩
  have hle : d.nearestWord ≤ Value.infinityWord := Value.nearestWord_le _ _
  -- The number is not below the midpoint to the word before, and not at it if that one is even.
  have hnot : ¬ d.nearestWord ≤ before := by omega
  rw [nearestWord_le_iff (by omega), not_or, not_and, not_lt] at hnot
  obtain ⟨habove, hodd⟩ := hnot
  rw [hbefore]
  have hsize : Value.size other ≤ Value.size before :=
    Value.strictMono_size.monotone (by omega)
  have horder : Value.size other < Value.size (before + 1) :=
    hsize.trans_lt (Value.strictMono_size (Nat.lt_succ_self before))
  unfold Value.midpoint at habove hodd
  obtain ⟨hnearer, htie⟩ :=
    Value.abs_sub_le_of_mid_le horder (x := d.toRat) (by linarith)
  refine ⟨hnearer, fun heq => ?_⟩
  have hmid := htie heq
  exact (Nat.not_even_iff_odd.mp (hodd (by linarith))).add_one

/-- No word above is nearer to a number than the word that it is rounded to. -/
theorem abs_sub_le_of_nearestWord_lt
    {other : Nat}
    (hgreater : d.nearestWord < other) (hother : other ≤ Value.infinityWord) :
    |d.toRat - Value.size d.nearestWord| ≤ |d.toRat - Value.size other| ∧
      (|d.toRat - Value.size d.nearestWord| =
        |d.toRat - Value.size other| → Even d.nearestWord) := by
  have hbelow :=
    (nearestWord_le_iff (d := d) (hgreater.trans_le hother)).mp le_rfl
  have hsize : Value.size (d.nearestWord + 1) ≤ Value.size other :=
    Value.strictMono_size.monotone hgreater
  have horder : Value.size d.nearestWord < Value.size other :=
    Value.strictMono_size hgreater
  unfold Value.midpoint at hbelow
  have hhalf :
      d.toRat ≤ (Value.size d.nearestWord + Value.size other) / 2 := by
    rcases hbelow with hless | ⟨hsame, -⟩
    · linarith
    · linarith
  obtain ⟨hnearer, htie⟩ := Value.abs_sub_le_of_le_mid horder hhalf
  refine ⟨hnearer, fun heq => ?_⟩
  have hmid := htie heq
  rcases hbelow with hless | ⟨-, heven⟩
  · linarith
  · exact heven

/-- The word that a decimal is read as is the nearest. -/
theorem roundsTo_nearestWord (d : Decimal) :
    Value.RoundsTo d.toRat d.nearestWord where
  le_infinity := Value.nearestWord_le _ _
  nearest := by
    intro other hother
    rcases Nat.lt_trichotomy other d.nearestWord with hless | rfl | hgreater
    · exact (abs_sub_le_of_lt_nearestWord hless).1
    · exact le_rfl
    · exact (abs_sub_le_of_nearestWord_lt hgreater hother).1
  even := by
    intro other hother hne
    rcases Nat.lt_or_gt_of_ne hne with hless | hgreater
    · exact (abs_sub_le_of_lt_nearestWord hless).2
    · exact (abs_sub_le_of_nearestWord_lt hgreater hother).2

theorem nearestWord_eq_iff :
    d.nearestWord = word ↔ Value.RoundsTo d.toRat word := by
  constructor
  · rintro rfl
    exact d.roundsTo_nearestWord
  · exact d.roundsTo_nearestWord.unique

end Decimal

end Rounding

end ArithMachine
