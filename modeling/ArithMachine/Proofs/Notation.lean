import ArithMachine.Decimal.Notation
import ArithMachine.Proofs.Decimals

/-!
# Decimal notation is read back

The reader of decimals finds the number that was written, whichever form it was
written in.  A run of digits ends where something else begins, which is the point,
the exponent or the end of the text; the digits before and behind the point are
then one run, and how many stand behind it goes into the exponent.

Written positionally, a decimal may have zeros put in front of its digits, which do
not count, and zeros put behind them.  It is then not the same decimal that is read
back, but another one for the same number, with as many significant digits.

The two forms are described by `HasPoint` and `HasExponent`, which also tell what
characters a text can have in it.
-/

namespace ArithMachine

section Notation

section Digits

variable {c : Char}

/-- A number is written in digits. -/
theorem Decimal.isDigit_of_mem_toDigits
    {n : Nat} (h : c ∈ Nat.toDigits 10 n) :
    c.isDigit = true :=
  Nat.isDigit_of_mem_toDigits (by decide) (by decide) h

theorem not_mem_toDigits
    (h : c.isDigit = false) (n : Nat) :
    c ∉ Nat.toDigits 10 n := by
  intro hmem
  rw [Decimal.isDigit_of_mem_toDigits hmem] at h
  cases h

end Digits

namespace Decimal

/-- Digits, of which there is at least one. -/
structure IsRun (cs : List Char) : Prop where
  ne_nil : cs ≠ []
  isDigit : ∀ c ∈ cs, c.isDigit = true

/-- Digits with a point among them, and digits on both sides of it. -/
def HasPoint (cs : List Char) : Prop :=
  ∃ whole fraction : List Char,
    cs = whole ++ '.' :: fraction ∧ IsRun whole ∧ IsRun fraction

/-- Digits, with a point or without, and an exponent behind them. -/
def HasExponent (cs : List Char) : Prop :=
  ∃ (front : List Char) (lead : Int),
    cs = front ++ 'e' :: integerText lead ∧ (IsRun front ∨ HasPoint front)

section Characters

variable {cs : List Char} {c : Char}

theorem mem_integerText
    {n : Int} (h : c ∈ integerText n) :
    c = '-' ∨ c.isDigit = true := by
  rcases List.mem_append.mp h with hsign | hdigit
  · left
    split at hsign
    · exact List.mem_singleton.mp hsign
    · cases hsign
  · exact Or.inr (isDigit_of_mem_toDigits hdigit)

theorem HasPoint.of_mem
    (h : HasPoint cs) (hmem : c ∈ cs) :
    c = '.' ∨ c.isDigit = true := by
  obtain ⟨whole, fraction, rfl, hwhole, hfraction⟩ := h
  rw [List.mem_append, List.mem_cons] at hmem
  rcases hmem with hmem | hpoint | hmem
  · exact Or.inr (hwhole.isDigit c hmem)
  · exact Or.inl hpoint
  · exact Or.inr (hfraction.isDigit c hmem)

theorem HasExponent.of_mem
    (h : HasExponent cs) (hmem : c ∈ cs) :
    c = '.' ∨ c = 'e' ∨ c = '-' ∨ c.isDigit = true := by
  obtain ⟨front, lead, rfl, hfront⟩ := h
  rw [List.mem_append, List.mem_cons] at hmem
  rcases hmem with hmem | hletter | hmem
  · have hplain : c = '.' ∨ c.isDigit = true := by
      rcases hfront with hrun | hpoint
      · exact Or.inr (hrun.isDigit c hmem)
      · exact hpoint.of_mem hmem
    exact hplain.imp_right fun hdigit => Or.inr (Or.inr hdigit)
  · exact Or.inr (Or.inl hletter)
  · exact Or.inr (Or.inr (mem_integerText hmem))

end Characters

section Runs

variable {digits more rest : List Char}

theorem digits?_of_isDigit
    (hdigits : ∀ c ∈ digits, c.isDigit = true) (hne : digits ≠ []) :
    digits? digits = some (Nat.ofDigitChars 10 digits 0) :=
  if_pos ⟨hne, List.all_eq_true.mpr hdigits⟩

theorem digits?_toDigits (n : Nat) :
    digits? (Nat.toDigits 10 n) = some n := by
  rw [digits?_of_isDigit (fun _ => isDigit_of_mem_toDigits) Nat.toDigits_ne_nil,
    Nat.ofDigitChars_ten_toDigits]

theorem isRun_toDigits (n : Nat) : IsRun (Nat.toDigits 10 n) :=
  ⟨Nat.toDigits_ne_nil, fun _ => isDigit_of_mem_toDigits⟩

theorem isDigit_of_mem_zeros
    {n : Nat} {c : Char} (h : c ∈ List.replicate n '0') :
    c.isDigit = true := by
  rw [List.eq_of_mem_replicate h]
  rfl

theorem isRun_zeros (n : Nat) : IsRun (List.replicate (n + 1) '0') :=
  ⟨List.cons_ne_nil _ _, fun _ => isDigit_of_mem_zeros⟩

theorem isDigit_append
    (hdigits : ∀ c ∈ digits, c.isDigit = true)
    (hmore : ∀ c ∈ more, c.isDigit = true) :
    ∀ c ∈ digits ++ more, c.isDigit = true :=
  fun c hmem => (List.mem_append.mp hmem).elim (hdigits c) (hmore c)

/-- A run of digits ends before a character that is none. -/
theorem takeWhile_digits
    (hdigits : ∀ c ∈ digits, c.isDigit = true)
    (hrest : ∀ c ∈ rest.head?, c.isDigit = false) :
    (digits ++ rest).takeWhile Char.isDigit = digits := by
  rw [List.takeWhile_append_of_pos hdigits]
  cases rest with
  | nil => simp
  | cons c rest => simp [hrest c rfl]

theorem dropWhile_digits
    (hdigits : ∀ c ∈ digits, c.isDigit = true)
    (hrest : ∀ c ∈ rest.head?, c.isDigit = false) :
    (digits ++ rest).dropWhile Char.isDigit = rest := by
  rw [List.dropWhile_append_of_pos hdigits]
  cases rest with
  | nil => rfl
  | cons c rest => simp [hrest c rfl]

/-- What is read as an exponent begins with its letter, if it is there at all. -/
theorem head?_of_exponent?
    {exponent : Int} (h : exponent? rest = some exponent) :
    ∀ c ∈ rest.head?, c = 'e' := by
  intro c hc
  unfold exponent? at h
  split at h
  · cases hc
  · exact (Option.some.inj hc).symm
  · exact (Option.some.inj hc).symm
  · cases h

/-- Zeros in front do not change a number. -/
theorem ofDigitChars_zeros_append (n : Nat) (digits : List Char) :
    Nat.ofDigitChars 10 (List.replicate n '0' ++ digits) 0 =
      Nat.ofDigitChars 10 digits 0 := by
  rw [Nat.ofDigitChars_append, Nat.ofDigitChars_replicate_zero, Nat.mul_zero]

theorem ofDigitChars_append_zeros (digits : List Char) (n : Nat) :
    Nat.ofDigitChars 10 (digits ++ List.replicate n '0') 0 =
      Nat.ofDigitChars 10 digits 0 * 10 ^ n := by
  rw [Nat.ofDigitChars_append, Nat.ofDigitChars_replicate_zero, Nat.mul_comm]

end Runs

section Reading

variable {whole fraction rest : List Char} {exponent : Int}

theorem ofText?_point
    (hwhole : IsRun whole) (hfraction : IsRun fraction)
    (hexponent : exponent? rest = some exponent) :
    ofText? (whole ++ '.' :: (fraction ++ rest)) =
      some ⟨Nat.ofDigitChars 10 (whole ++ fraction) 0,
        exponent - fraction.length⟩ := by
  have hpoint : ∀ c ∈ ('.' :: (fraction ++ rest)).head?, c.isDigit = false := by
    rintro c ⟨⟩
    rfl
  have hrest : ∀ c ∈ rest.head?, c.isDigit = false := by
    intro c hc
    rw [head?_of_exponent? hexponent c hc]
    rfl
  have hdigits :
      digits? (whole ++ fraction) =
        some (Nat.ofDigitChars 10 (whole ++ fraction) 0) :=
    digits?_of_isDigit (isDigit_append hwhole.isDigit hfraction.isDigit)
      (List.append_ne_nil_of_left_ne_nil hwhole.ne_nil _)
  simp only [ofText?, takeWhile_digits hwhole.isDigit hpoint,
    dropWhile_digits hwhole.isDigit hpoint,
    takeWhile_digits hfraction.isDigit hrest,
    dropWhile_digits hfraction.isDigit hrest, hdigits, hexponent]
  rfl

theorem ofText?_plain
    (hwhole : IsRun whole) (hexponent : exponent? rest = some exponent) :
    ofText? (whole ++ rest) =
      some ⟨Nat.ofDigitChars 10 whole 0, exponent⟩ := by
  have hletter := head?_of_exponent? hexponent
  have hrest : ∀ c ∈ rest.head?, c.isDigit = false := by
    intro c hc
    rw [hletter c hc]
    rfl
  have hpoint : ∀ more, rest ≠ '.' :: more := by
    rintro more rfl
    exact absurd (hletter '.' rfl) (by decide)
  simp only [ofText?, takeWhile_digits hwhole.isDigit hrest,
    dropWhile_digits hwhole.isDigit hrest]
  simp [digits?_of_isDigit hwhole.isDigit hwhole.ne_nil, hexponent]

theorem exponent?_integerText (n : Int) :
    exponent? ('e' :: integerText n) = some n := by
  have hdigits := digits?_toDigits n.natAbs
  rw [integerText]
  by_cases hnegative : n < 0
  · rw [if_pos hnegative, List.singleton_append, exponent?, hdigits]
    simp [abs_of_neg hnegative]
  · -- The first digit is not a sign.
    have hsign : ∀ cs, Nat.toDigits 10 n.natAbs ≠ '-' :: cs := by
      intro cs hcons
      have hmem : '-' ∉ Nat.toDigits 10 n.natAbs := not_mem_toDigits rfl _
      rw [hcons] at hmem
      exact hmem List.mem_cons_self
    rw [if_neg hnegative, List.nil_append, exponent?.eq_3 _ hsign, hdigits]
    simpa using hnegative

end Reading

section Forms

variable {digits : List Char}

/-- Positional text has a point, and its digits make up the same number. -/
theorem exists_positional
    (h : IsRun digits) (exponent : Int) :
    ∃ whole fraction : List Char,
      positional digits exponent = whole ++ '.' :: fraction ∧
        IsRun whole ∧ IsRun fraction ∧
        toRat ⟨Nat.ofDigitChars 10 (whole ++ fraction) 0,
            -(fraction.length : Int)⟩ =
          toRat ⟨Nat.ofDigitChars 10 digits 0, exponent⟩ := by
  simp only [positional]
  split
  · -- All digits stand before the point, and the zero behind it is one digit more.
    rename_i hwhole
    obtain ⟨n, rfl⟩ := Int.eq_ofNat_of_zero_le hwhole
    refine ⟨digits ++ List.replicate n '0', ['0'], rfl,
      ⟨List.append_ne_nil_of_left_ne_nil h.ne_nil _,
        isDigit_append h.isDigit fun _ => isDigit_of_mem_zeros⟩,
      isRun_zeros 0, ?_⟩
    have hzeros :
        digits ++ List.replicate n '0' ++ ['0'] =
          digits ++ List.replicate (n + 1) '0' := by
      rw [List.append_assoc, List.replicate_succ']
    rw [hzeros, ofDigitChars_append_zeros, toRat_mul_pow]
    congr 2
    simp
  · split
    · rename_i hnegative hpositive
      generalize hplace : (exponent + digits.length).toNat = place
      refine ⟨digits.take place, digits.drop place, rfl,
        ⟨?_, fun c hmem => h.isDigit c (List.mem_of_mem_take hmem)⟩,
        ⟨?_, fun c hmem => h.isDigit c (List.mem_of_mem_drop hmem)⟩, ?_⟩
      · rw [Ne, List.take_eq_nil_iff, not_or]
        exact ⟨by omega, h.ne_nil⟩
      · rw [Ne, List.drop_eq_nil_iff]
        omega
      · rw [List.take_append_drop, List.length_drop]
        congr 2
        omega
    · -- Zeros fill the places behind the point, and one stands before it.
      rename_i hnegative hzeros
      generalize hplace : (-(exponent + digits.length)).toNat = zeros
      refine ⟨['0'], List.replicate zeros '0' ++ digits, rfl, isRun_zeros 0,
        ⟨List.append_ne_nil_of_right_ne_nil _ h.ne_nil,
          isDigit_append (fun _ => isDigit_of_mem_zeros) h.isDigit⟩, ?_⟩
      have hfront :
          ['0'] ++ (List.replicate zeros '0' ++ digits) =
            List.replicate (zeros + 1) '0' ++ digits := rfl
      rw [hfront, ofDigitChars_zeros_append, List.length_append,
        List.length_replicate]
      congr 2
      omega

/-- Text with an exponent is digits, and they make up the same number. -/
theorem scientific_spec
    (h : IsRun digits) (lead : Int) :
    HasExponent (scientific digits lead) ∧
      ofText? (scientific digits lead) =
        some ⟨Nat.ofDigitChars 10 digits 0,
          lead - (digits.length - 1 : ℕ)⟩ := by
  have hexponent := exponent?_integerText lead
  cases digits with
  | nil => exact absurd rfl h.ne_nil
  | cons first more =>
      have hfirst : IsRun [first] := by
        refine ⟨List.cons_ne_nil _ _, fun c hmem => h.isDigit c ?_⟩
        rw [List.mem_singleton.mp hmem]
        exact List.mem_cons_self
      cases more with
      | nil =>
          have hread := ofText?_plain hfirst hexponent
          exact ⟨⟨[first], lead, rfl, Or.inl hfirst⟩, by
            simpa [scientific] using hread⟩
      | cons second more =>
          have hmore : IsRun (second :: more) :=
            ⟨List.cons_ne_nil _ _, fun c hmem =>
              h.isDigit c (List.mem_cons_of_mem first hmem)⟩
          have hread := ofText?_point hfirst hmore hexponent
          refine ⟨⟨first :: '.' :: second :: more, lead, rfl, Or.inr
            ⟨[first], second :: more, rfl, hfirst, hmore⟩⟩, ?_⟩
          simpa [scientific] using hread

theorem ofText?_positional
    (h : IsRun digits) (exponent : Int) :
    (ofText? (positional digits exponent)).map toRat =
      some (toRat ⟨Nat.ofDigitChars 10 digits 0, exponent⟩) := by
  obtain ⟨whole, fraction, htext, hwhole, hfraction, hvalue⟩ :=
    exists_positional h exponent
  have hend : exponent? [] = some 0 := rfl
  have hread := ofText?_point hwhole hfraction hend
  rw [List.append_nil, Int.zero_sub] at hread
  rw [htext, hread, Option.map_some, hvalue]

theorem hasPoint_text
    {d : Decimal} (h : isPositional d.lead = true) :
    HasPoint d.text := by
  obtain ⟨whole, fraction, htext, hwhole, hfraction, -⟩ :=
    exists_positional (isRun_toDigits d.digits) d.exponent
  rw [text, if_pos h]
  exact ⟨whole, fraction, htext, hwhole, hfraction⟩

theorem hasExponent_text
    {d : Decimal} (h : isPositional d.lead = false) :
    HasExponent d.text := by
  rw [text, h]
  exact (scientific_spec (isRun_toDigits d.digits) d.lead).1

theorem of_mem_text
    {d : Decimal} {c : Char} (h : c ∈ d.text) :
    c = '.' ∨ c = 'e' ∨ c = '-' ∨ c.isDigit = true := by
  cases hform : isPositional d.lead with
  | true =>
      exact ((hasPoint_text hform).of_mem h).imp_right
        fun hdigit => Or.inr (Or.inr hdigit)
  | false => exact (hasExponent_text hform).of_mem h

/-- What is read back from the text of a decimal is the same number. -/
theorem ofText?_text (d : Decimal) :
    (ofText? d.text).map toRat = some d.toRat := by
  have hdigits := isRun_toDigits d.digits
  rw [text]
  split
  · rw [ofText?_positional hdigits, Nat.ofDigitChars_ten_toDigits]
  · have hlength : 0 < (Nat.toDigits 10 d.digits).length :=
      List.length_pos_iff.mpr hdigits.ne_nil
    rw [(scientific_spec hdigits d.lead).2, Nat.ofDigitChars_ten_toDigits,
      Option.map_some]
    congr 2
    ext
    · rfl
    · simp only [lead]
      omega

end Forms

end Decimal

end Notation

end ArithMachine
