import ArithMachine.Proofs.Shortest
import ArithMachine.Proofs.Texts

/-!
# Texts identify values

The text of a value that is not a NaN is read back as that value, the sign of zero
included, and among the decimals that are rounded to it none has fewer significant
digits than the one in the text.

For the magnitude this puts together two things: the search for a shortest decimal
ends with one that is rounded to the word, and reading the text of a decimal gives
the same number again.  The sign stands in front and is not mistaken for anything
else, since no decimal begins with one.

As readers can only be given one answer, texts tell values apart, except that there
is one text for all NaNs.  The names of instructions have no blank in them, so that
the text of an instruction tells its opcode as well as its value.
-/

namespace ArithMachine

section ShortestText

namespace Decimal

section Layout

variable {d : Decimal} {word : Nat} {exponent : Int}

/-- Of the numbers with one digit below a power of ten, the greatest is written with a nine. -/
theorem toRat_le_nine
    (hpos : 0 < d.trim.digits) (hone : d.significant ≤ 1)
    (hless : d.toRat < 10 ^ exponent) :
    d.toRat ≤ toRat ⟨9, exponent - 1⟩ := by
  have hdigit : d.trim.digits < 10 ^ 1 := by
    rwa [significant, Nat.digits_length_le_iff (by decide)] at hone
  have hfirst : (1 : ℚ) ≤ d.trim.digits := by exact_mod_cast hpos
  have hnine : (d.trim.digits : ℚ) ≤ 9 := by
    exact_mod_cast Nat.le_of_lt_succ hdigit
  have hexponent : d.trim.exponent < exponent := by
    rw [← zpow_lt_zpow_iff_right₀ (show (1 : ℚ) < 10 by norm_num)]
    refine lt_of_le_of_lt ?_ hless
    rw [← toRat_trim, toRat]
    exact le_mul_of_one_le_left (by positivity) hfirst
  rw [← toRat_trim, toRat, toRat]
  exact mul_le_mul hnine
    (zpow_le_zpow_right₀ (by norm_num) (Int.le_sub_one_of_lt hexponent))
    (by positivity) (by norm_num)

/--
The first digit of a shortest decimal stands at a power of ten or before it if the
word is that of the power or a greater one.

The gap is needed for the word of the power itself, which the power identifies with
one digit: another decimal with one digit could only be less than the power if it
were rounded to the same word.
-/
theorem le_lead_shortest_iff
    (exponent : Int)
    (hpos : 0 < word) (hfinite : word < Value.infinityWord)
    (hgap : nearestWord ⟨9, exponent - 1⟩ < nearestWord ⟨1, exponent⟩) :
    exponent ≤ (shortest word).lead ↔ nearestWord ⟨1, exponent⟩ ≤ word := by
  obtain ⟨hword, hshortest⟩ := shortest_spec hpos hfinite
  have htrim : 0 < (shortest word).trim.digits := digits_trim_pos hpos hword
  obtain ⟨hge, hlt⟩ :=
    lead_spec (htrim.trans_le (shortest word).trim_spec.2.1)
  have hpower : toRat ⟨1, exponent⟩ = 10 ^ exponent := by
    rw [toRat, Nat.cast_one, one_mul]
  constructor
  · intro hle
    rw [← hword]
    apply nearestWord_mono
    rw [hpower]
    exact (zpow_le_zpow_right₀ (by norm_num) hle).trans hge
  · intro hle
    by_contra hless
    have hbelow : (shortest word).toRat < 10 ^ exponent :=
      hlt.trans_le (zpow_le_zpow_right₀ (by norm_num) (by omega))
    have hsame : nearestWord ⟨1, exponent⟩ = word := by
      refine Nat.le_antisymm hle ?_
      rw [← hword]
      exact nearestWord_mono (hpower ▸ hbelow.le)
    have hone : (shortest word).significant ≤ 1 :=
      (hshortest _ hsame).trans (significant_le (show 1 < 10 ^ 1 by decide))
    have hnine := nearestWord_mono (toRat_le_nine htrim hone hbelow)
    omega

end Layout

end Decimal

namespace Value

/-- Zero, and the words from that of 1e-4 on that are below the word of 1e16. -/
def IsModerate (word : Nat) : Prop :=
  word = 0 ∨
    Decimal.nearestWord ⟨1, -4⟩ ≤ word ∧ word < Decimal.nearestWord ⟨1, 16⟩

/--
A text writes a finite size with as few digits as identify it.

The decimal that is read is rounded to the word; of all decimals that are, none has
fewer significant digits.  There is a point in the text, unless the size takes an
exponent.
-/
structure WritesShortest (word : Nat) (cs : List Char) (d : Decimal) : Prop where
  reads : Decimal.ofText? cs = some d
  rounds : RoundsTo d.toRat word
  shortest :
    ∀ d' : Decimal, RoundsTo d'.toRat word → d.significant ≤ d'.significant
  point : IsModerate word → Decimal.HasPoint cs
  exponent : ¬ IsModerate word → Decimal.HasExponent cs

section Magnitudes

variable {word : Nat}

theorem isModerate_iff
    (hpos : 0 < word) (hfinite : word < infinityWord) :
    IsModerate word ↔
      Decimal.isPositional (Decimal.shortest word).lead = true := by
  have hlow := Decimal.le_lead_shortest_iff (-4) hpos hfinite
    (by decide +kernel)
  have hhigh := Decimal.le_lead_shortest_iff 16 hpos hfinite
    (by decide +kernel)
  rw [IsModerate, or_iff_right hpos.ne', ← hlow, ← Nat.not_le, ← hhigh,
    Decimal.isPositional, decide_eq_true_iff, Int.not_le]

theorem writesShortest_zero :
    WritesShortest 0 ['0', '.', '0'] ⟨0, -1⟩ where
  reads := rfl
  rounds := Decimal.nearestWord_eq_iff.mp (by decide)
  shortest d' _ := (Decimal.significant_le (n := 0) (by decide)).trans (Nat.zero_le _)
  point _ := ⟨['0'], ['0'], rfl, Decimal.isRun_zeros 0, Decimal.isRun_zeros 0⟩
  exponent h := absurd (Or.inl rfl) h

theorem exists_writesShortest
    (h : word < infinityWord) :
    ∃ d : Decimal, WritesShortest word (magnitudeText word) d := by
  rcases Nat.eq_zero_or_pos word with rfl | hpos
  · exact ⟨⟨0, -1⟩, writesShortest_zero⟩
  · obtain ⟨hword, hshortest⟩ := Decimal.shortest_spec hpos h
    have htext : magnitudeText word = (Decimal.shortest word).text := by
      rw [magnitudeText, if_neg h.ne, if_neg hpos.ne']
    obtain ⟨d, hread, hvalue⟩ :=
      Option.map_eq_some_iff.mp (Decimal.shortest word).ofText?_text
    have hlayout := isModerate_iff hpos h
    rw [htext]
    refine ⟨d, hread, ?_, ?_, ?_, ?_⟩
    · rw [hvalue]
      exact Decimal.nearestWord_eq_iff.mp hword
    · intro d' hd'
      rw [Decimal.significant_congr hvalue]
      exact hshortest d' (Decimal.nearestWord_eq_iff.mpr hd')
    · intro hmoderate
      exact Decimal.hasPoint_text (hlayout.mp hmoderate)
    · intro hextreme
      rw [hlayout, Bool.not_eq_true] at hextreme
      exact Decimal.hasExponent_text hextreme

end Magnitudes

section Reading

variable {cs : List Char} {d : Decimal} {v : Value}

theorem magnitudeOfText?_decimal
    (h : Decimal.ofText? cs = some d) :
    magnitudeOfText? cs = some d.nearestWord := by
  unfold magnitudeOfText?
  split
  · cases h
  · rw [h, Option.map_some]

/-- The reader takes the sign from the front; no size begins with one, and none is `NaN`. -/
theorem ofText?_signText
    {word : Nat} (negative : Bool)
    (h : magnitudeOfText? cs = some word) :
    ofText? (String.ofList (signText negative ++ cs)) =
      some (ofParts negative word) := by
  rw [ofText?, String.toList_ofList]
  cases negative with
  | true => simp [signText, h]
  | false =>
      simp only [signText, Bool.false_eq_true, if_false, List.nil_append]
      split
      · cases h
      · cases h
      · rw [h, Option.map_some]

theorem magnitudeOfText?_magnitudeText
    {word : Nat} (h : word ≤ infinityWord) :
    magnitudeOfText? (magnitudeText word) = some word := by
  rcases Nat.lt_or_eq_of_le h with hfinite | rfl
  · obtain ⟨d, hd⟩ := exists_writesShortest hfinite
    rw [magnitudeOfText?_decimal hd.reads,
      Decimal.nearestWord_eq_iff.mpr hd.rounds]
  · rfl

theorem text_eq
    (h : v.isNaN = false) :
    v.text = String.ofList (signText v.negative ++ magnitudeText v.magnitude) := by
  rw [text, characters, h]
  rfl

/-- A value is read back from its text, but for the sign and the payload of a NaN. -/
theorem ofText?_text (v : Value) :
    ofText? v.text = some (if v.isNaN then nan else v) := by
  cases h : v.isNaN with
  | true =>
      rw [text, characters, if_pos h]
      rfl
  | false =>
      have hle : v.magnitude ≤ infinityWord :=
        Nat.le_of_not_lt (of_decide_eq_false h)
      rw [text_eq h, ofText?_signText _ (magnitudeOfText?_magnitudeText hle),
        ofParts_parts]
      rfl

/-- Texts tell values apart, except NaNs from one another. -/
theorem text_eq_text_iff
    {a b : Value} :
    a.text = b.text ↔ a = b ∨ a.isNaN = true ∧ b.isNaN = true := by
  constructor
  · intro h
    have hread := ofText?_text a
    rw [h, ofText?_text b] at hread
    have hsame := Option.some.inj hread
    have hnan : nan.isNaN = true := rfl
    cases ha : a.isNaN with
    | true =>
        cases hb : b.isNaN with
        | true => exact Or.inr ⟨rfl, rfl⟩
        | false =>
            rw [ha, hb] at hsame
            rw [show b = nan from hsame, hnan] at hb
            cases hb
    | false =>
        cases hb : b.isNaN with
        | true =>
            rw [ha, hb] at hsame
            rw [← show nan = a from hsame, hnan] at ha
            cases ha
        | false =>
            rw [ha, hb] at hsame
            exact Or.inl hsame.symm
  · rintro (rfl | ⟨ha, hb⟩)
    · rfl
    · rw [text, text, characters, characters, if_pos ha, if_pos hb]

end Reading

end Value

section Instructions

theorem Opcode.name_injective : Function.Injective Opcode.name := by
  let opcodes : List Opcode :=
    [ret, immediate, negate, binary .add, binary .subtract, binary .multiply,
      binary .divide]
  have hmem : ∀ op : Opcode, op ∈ opcodes := by
    intro op
    cases op with
    | binary op => cases op <;> decide
    | ret | immediate | negate => decide
  have hnames :
      ∀ a ∈ opcodes, ∀ b ∈ opcodes, a.name = b.name → a = b := by
    decide
  intro a b h
  exact hnames a (hmem a) b (hmem b) h

namespace Instruction

/-- The text of an instruction begins with the name of its opcode, which has no blank in it. -/
theorem takeWhile_characters (i : Instruction) :
    i.characters.takeWhile (· ≠ ' ') = i.opcode.name.toList := by
  cases i with
  | immediate v =>
      rw [characters_immediate]
      simp [opcode, Opcode.name]
  | ret | negate => decide
  | binary op =>
      cases op with
      | add | subtract | multiply | divide => decide

theorem opcode_eq_of_text_eq
    {i j : Instruction} (h : i.text = j.text) :
    i.opcode = j.opcode := by
  apply Opcode.name_injective
  rw [← String.toList_inj, ← takeWhile_characters, ← takeWhile_characters,
    String.ofList_injective h]

theorem exists_eq_immediate
    {i : Instruction} (h : i.opcode = .immediate) :
    ∃ v, i = immediate v := by
  cases i with
  | immediate v => exact ⟨v, rfl⟩
  | ret | negate | binary => cases h

/-- Only immediates have more to them than an opcode. -/
theorem eq_of_opcode_eq
    {i j : Instruction}
    (hi : i.opcode ≠ .immediate) (h : i.opcode = j.opcode) :
    i = j := by
  cases i <;> cases j <;> simp_all [opcode]

/-- Texts tell instructions apart, except immediates of NaNs from one another. -/
theorem text_eq_text_iff
    {i j : Instruction} :
    i.text = j.text ↔
      i = j ∨
        ∃ a b : Value,
          i = immediate a ∧ j = immediate b ∧
            a.isNaN = true ∧ b.isNaN = true := by
  constructor
  · intro h
    have hopcode := opcode_eq_of_text_eq h
    by_cases himmediate : i.opcode = .immediate
    · obtain ⟨a, rfl⟩ := exists_eq_immediate himmediate
      obtain ⟨b, rfl⟩ := exists_eq_immediate (hopcode ▸ himmediate)
      have hcharacters := String.ofList_injective h
      rw [characters_immediate, characters_immediate,
        List.append_right_inj] at hcharacters
      rcases Value.text_eq_text_iff.mp (congrArg String.ofList hcharacters) with
        rfl | hnan
      · exact Or.inl rfl
      · exact Or.inr ⟨a, b, rfl, rfl, hnan⟩
    · exact Or.inl (eq_of_opcode_eq himmediate hopcode)
  · rintro (rfl | ⟨a, b, rfl, rfl, hnan⟩)
    · rfl
    · have htext := Value.text_eq_text_iff.mpr (Or.inr hnan)
      rw [text, text, characters_immediate, characters_immediate,
        String.ofList_injective htext]

end Instruction

end Instructions

/--
The text of a value is the shortest that identifies it.

A value that is not a NaN is read back from its text.  Behind the sign, a finite value
is written as a decimal that is rounded to it, to the nearest and with ties to even,
and no decimal that is has fewer significant digits; with a point, or with an exponent
where the size is below 1e-4 or not below 1e16.  Infinities are written `inf` behind
their sign.  There are no blanks and no ends of line.  Two values therefore have one
text if they are the same word or both NaNs, and instructions without NaNs have
different texts.
-/
theorem Value.text_identifies :
    (∀ v : Value, v.isNaN = false → ofText? v.text = some v) ∧
    (∀ v : Value, v.magnitude < infinityWord →
      ∃ (cs : List Char) (d : Decimal),
        v.text = String.ofList (signText v.negative ++ cs) ∧
          WritesShortest v.magnitude cs d) ∧
    (∀ negative : Bool,
      (infinity negative).text =
        String.ofList (signText negative ++ ['i', 'n', 'f'])) ∧
    (∀ v : Value, ' ' ∉ v.text.toList ∧ '\n' ∉ v.text.toList) ∧
    (∀ a b : Value,
      a.text = b.text ↔ a = b ∨ a.isNaN = true ∧ b.isNaN = true) ∧
    Set.InjOn Instruction.text
      {i | ∀ v : Value, i = .immediate v → v.isNaN = false} := by
  refine ⟨?read, ?finite, ?infinite, ?characters, fun _ _ => text_eq_text_iff,
    ?instructions⟩
  case read =>
    intro v h
    rw [ofText?_text, h]
    rfl
  case finite =>
    intro v h
    have hnan : v.isNaN = false := decide_eq_false (Nat.lt_asymm h)
    obtain ⟨d, hd⟩ := exists_writesShortest h
    exact ⟨magnitudeText v.magnitude, d, text_eq hnan, hd⟩
  case infinite =>
    intro negative
    cases negative with
    | false | true => decide
  case characters =>
    intro v
    rw [text, String.toList_ofList]
    exact ⟨v.not_mem_characters rfl, v.not_mem_characters rfl⟩
  case instructions =>
    intro i hi j _ h
    rcases Instruction.text_eq_text_iff.mp h with rfl | ⟨a, _, rfl, _, ha, _⟩
    · rfl
    · rw [hi a rfl] at ha
      cases ha

/-- The least size above zero, and a power of two, where the words above are twice as far apart. -/
theorem Value.text_identifies_least :
    let least := ofParts false 1
    let power := ofParts true 0x4c000000
    (least.isNaN = false ∧ least.text = "1e-45" ∧
      ofText? "1e-45" = some least) ∧
    (power.magnitude < infinityWord ∧ power.text = "-33554432.0" ∧
      ∃ (cs : List Char) (d : Decimal),
        power.text = String.ofList (signText power.negative ++ cs) ∧
          WritesShortest power.magnitude cs d) := by
  intro least power
  have hleast : least.text = "1e-45" := by decide +kernel
  have hpower : power.text = "-33554432.0" := by decide +kernel
  refine ⟨⟨by decide, hleast, ?_⟩, by decide, hpower, ?_⟩
  · rw [← hleast]
    exact text_identifies.1 least (by decide)
  · exact text_identifies.2.1 power (by decide)

end ShortestText

end ArithMachine
