import ArithMachine.Proofs.Comparison
import ArithMachine.Proofs.Joining
import ArithMachine.Proofs.Scanning

/-!
# Numeric equality and bytes

Equality of programs as numbers and equality of their bytes do not contain one
another.  A program with a NaN has the bytes of itself without being equal to
itself, and a zero may be replaced by the other one without the programs ceasing
to be equal.

There are no other differences.  Instructions that are equal as numbers have one
wire form, or are immediates of the two zeros, whose wire forms differ in the byte
of the sign.  By induction over two equal lists their wire forms have one length and
differ in such bytes only, which belong to operands.  So the instructions start at the
same offsets, and the runs end alike.
-/

namespace ArithMachine

section NumericEquality

/-- The byte of a zero in which its sign stands. -/
def Value.signByte (negative : Bool) : UInt8 :=
  if negative then 0x80 else 0

theorem Value.encode_zero
    (s : Bool) :
    (zero s).encode = [0, 0, 0, signByte s] := by
  cases s <;> decide

/-- Values that are equal as numbers are equal, or they are the two zeros. -/
theorem Value.eq_or_zeros_of_numEq
    {a b : Value}
    (h : a.numEq b = true) :
    a = b ∨ ∃ s, a = zero s ∧ b = zero !s := by
  obtain ⟨_, _, hbits | ⟨⟨s, rfl⟩, ⟨t, rfl⟩⟩⟩ := numEq_eq_true_iff.mp h
  · exact Or.inl (Value.ext hbits)
  · by_cases hsign : t = s
    · exact Or.inl (congrArg zero hsign.symm)
    · exact Or.inr ⟨s, rfl, congrArg zero (Bool.eq_not_of_ne hsign)⟩

namespace Instruction

variable {i j : Instruction} {is js : List Instruction}

theorem numEq_eq_true_iff :
    i.numEq j = true ↔
      i.opcode = j.opcode ∧
        ∀ a b : Value,
          i = .immediate a → j = .immediate b → a.numEq b = true := by
  cases i <;> cases j <;> simp [numEq, opcode]

theorem numEq_self_eq_true_iff :
    i.numEq i = true ↔ ∀ v : Value, i = .immediate v → v.isNaN = false := by
  cases i <;> simp [numEq, Value.numEq_self]

theorem encodedLength_of_numEq
    (h : i.numEq j = true) :
    i.encodedLength = j.encodedLength := by
  rw [encodedLength, encodedLength, (numEq_eq_true_iff.mp h).1]

/-- Instructions that are equal as numbers are equal, or they are immediates of the two zeros. -/
theorem eq_or_zeros_of_numEq
    (h : i.numEq j = true) :
    i = j ∨
      ∃ s : Bool, i = .immediate (.zero s) ∧ j = .immediate (.zero !s) := by
  cases i with
  | immediate a =>
      cases j with
      | immediate b =>
          obtain rfl | ⟨s, rfl, rfl⟩ := Value.eq_or_zeros_of_numEq h
          · exact Or.inl rfl
          · exact Or.inr ⟨s, rfl, rfl⟩
      | ret | negate | binary => simp [numEq] at h
  | ret | negate | binary => exact Or.inl (of_decide_eq_true h)

theorem encode_immediate_zero
    (s : Bool) :
    (immediate (.zero s)).encode = [2, 0, 0, 0, Value.signByte s] := by
  rw [encode, operandBytes, Value.encode_zero]
  rfl

/-- The wire forms of equal instructions differ in the sign of a zero only. -/
theorem exists_zero_of_encode_ne
    {n : Nat}
    (h : i.numEq j = true)
    (hne : i.encode[n]? ≠ j.encode[n]?) :
    ∃ s : Bool,
      i = .immediate (.zero s) ∧ j = .immediate (.zero !s) ∧ n = 4 ∧
      i.encode[n]? = some (Value.signByte s) ∧
      j.encode[n]? = some (Value.signByte !s) := by
  obtain rfl | ⟨s, rfl, rfl⟩ := eq_or_zeros_of_numEq h
  · exact absurd rfl hne
  · rw [encode_immediate_zero, encode_immediate_zero] at hne ⊢
    match n with
    | 0 | 1 | 2 | 3 => exact absurd rfl hne
    | 4 => exact ⟨s, rfl, rfl, rfl, rfl, rfl⟩
    | _ + 5 => exact absurd rfl hne

/-- Lists are equal as numbers if they are so instruction by instruction. -/
theorem listNumEq_iff_forall₂ :
    listNumEq is js = true ↔
      List.Forall₂ (fun i j => i.numEq j = true) is js := by
  induction is generalizing js with
  | nil => cases js <;> simp [listNumEq]
  | cons i is ih => cases js <;> simp [listNumEq, ih]

theorem listNumEq_iff_getElem? :
    listNumEq is js = true ↔
      is.length = js.length ∧
        ∀ (k : Nat) (i j : Instruction),
          is[k]? = some i → js[k]? = some j → i.numEq j = true := by
  rw [listNumEq_iff_forall₂, List.forall₂_iff_get]
  refine and_congr_right fun hlength => ?_
  constructor
  · intro h k i j hi hj
    obtain ⟨hk, rfl⟩ := List.getElem?_eq_some_iff.mp hi
    obtain ⟨hk', rfl⟩ := List.getElem?_eq_some_iff.mp hj
    exact h k hk hk'
  · intro h k hk hk'
    exact h k _ _ (List.getElem?_eq_getElem hk) (List.getElem?_eq_getElem hk')

theorem listNumEq_self_iff :
    listNumEq is is = true ↔
      ∀ v : Value, .immediate v ∈ is → v.isNaN = false := by
  rw [listNumEq_iff_forall₂, List.forall₂_same]
  simp only [numEq_self_eq_true_iff]
  constructor
  · intro h v hv
    exact h _ hv v rfl
  · rintro h i hi v rfl
    exact h v hi

end Instruction

section WireForms

variable {is js : List Instruction}

theorem length_encode_of_listNumEq
    (h : Instruction.listNumEq is js = true) :
    (encode is).length = (encode js).length := by
  rw [Instruction.listNumEq_iff_forall₂] at h
  induction h with
  | nil => rfl
  | cons hij _ ih =>
      rw [encode_cons, encode_cons, List.length_append, List.length_append,
        Instruction.length_encode, Instruction.length_encode,
        Instruction.encodedLength_of_numEq hij, ih]

/-- Where the wire forms of equal lists differ, both have the sign of a zero. -/
theorem exists_zero_of_getElem?_ne
    {offset : Nat}
    (h : Instruction.listNumEq is js = true)
    (hne : (encode is)[offset]? ≠ (encode js)[offset]?) :
    ∃ (k : Nat) (s : Bool),
      is[k]? = some (.immediate (.zero s)) ∧
      js[k]? = some (.immediate (.zero !s)) ∧
      offset = boundary (encode is) k + 4 ∧
      (encode is)[offset]? = some (Value.signByte s) ∧
      (encode js)[offset]? = some (Value.signByte !s) := by
  rw [Instruction.listNumEq_iff_forall₂] at h
  induction h generalizing offset with
  | nil => exact absurd rfl hne
  | @cons i j is js hij _ ih =>
      have hlength : j.encode.length = i.encode.length := by
        rw [Instruction.length_encode, Instruction.length_encode,
          Instruction.encodedLength_of_numEq hij]
      rw [encode_cons, encode_cons] at hne ⊢
      by_cases hhere : offset < i.encode.length
      · rw [List.getElem?_append_left hhere,
          List.getElem?_append_left (hlength ▸ hhere)] at hne ⊢
        obtain ⟨s, rfl, rfl, rfl, hbyte, hbyte'⟩ :=
          Instruction.exists_zero_of_encode_ne hij hne
        exact ⟨0, s, rfl, rfl, rfl, hbyte, hbyte'⟩
      · have hbehind : i.encode.length ≤ offset := Nat.le_of_not_lt hhere
        rw [List.getElem?_append_right hbehind,
          List.getElem?_append_right (hlength ▸ hbehind), hlength] at hne ⊢
        obtain ⟨k, s, hi, hj, hoffset, hbytes⟩ := ih hne
        obtain ⟨hk, _⟩ := List.getElem?_eq_some_iff.mp hi
        refine ⟨k + 1, s, hi, hj, ?_, hbytes⟩
        rw [← encode_cons, boundary_cons i (Nat.le_of_lt hk),
          ← i.length_encode]
        omega

/-- Equal lists have wire forms that agree outside operands. -/
theorem agreeOutsideOperands_of_listNumEq
    (h : Instruction.listNumEq is js = true) :
    AgreeOutsideOperands (encode is) (encode js) := by
  refine ⟨(length_encode_of_listNumEq h).symm, ?_⟩
  intro offset hout
  by_contra hne
  obtain ⟨k, s, hi, _, hoffset, _⟩ :=
    exists_zero_of_getElem?_ne h (Ne.symm hne)
  exact hout ⟨k, getElem?_boundary hi, by omega, Nat.le_of_eq hoffset⟩

end WireForms

theorem AgreeOutsideOperands.boundary_eq
    {bytes bytes' : List UInt8}
    (h : AgreeOutsideOperands bytes bytes') (k : Nat) :
    boundary bytes' k = boundary bytes k := by
  induction k with
  | zero => rfl
  | succ k ih =>
      have hsame :=
        h.getElem?_eq (boundary bytes k) (not_inOperand_boundary bytes k)
      rw [boundary, boundary, ih, operandLengthAt, operandLengthAt, hsame]

/-- Runs over byte strings that agree outside operands have one shape. -/
theorem Machine.shape_of_agree
    {σ : Type} {bytes bytes' : List UInt8}
    (m : Machine σ) (log log' : σ)
    (h : AgreeOutsideOperands bytes bytes') :
    (m.tryExecute bytes' log').2.shape = (m.tryExecute bytes log).2.shape := by
  have hscans := (m.shape_tryExecute bytes log).1.of_agree h ⟨0, rfl⟩
  exact (m.shape_tryExecute bytes' log').2.symm.trans hscans.scanFrom_eq

/--
How far numeric equality of programs agrees with equality of their bytes.

Two programs have equal instructions if these have the same opcodes one by one, and
no immediate is a NaN, and two immediates at one place have one word or are both
zeros; the programs are equal if their lines are equal as well.

Programs with equal instructions have wire forms of one length with the same
boundaries, which differ only in the sign of zeros that are immediates.  Under every
limit their runs end with one fault, or both with an answer that has a value or both
with one that has none.

Programs with equal bytes have equal instructions if and only if no immediate is a
NaN, and so has a program that was decoded from its own bytes.
-/
theorem Program.numEq_and_wireForm
    (p q : Program) :
    let is := p.instructions
    let js := q.instructions
    let WithoutNaN : Prop := ∀ v : Value, .immediate v ∈ is → v.isNaN = false
    (Instruction.listNumEq is js = true ↔
      is.length = js.length ∧
      ∀ (k : Nat) (i j : Instruction),
        is[k]? = some i → js[k]? = some j →
        i.opcode = j.opcode ∧
        ∀ a b : Value,
          i = .immediate a → j = .immediate b →
          a.isNaN = false ∧ b.isNaN = false ∧
          (a.bits = b.bits ∨
            (∃ s, a = Value.zero s) ∧ ∃ t, b = Value.zero t)) ∧
    (p.numEq q = true ↔
      Instruction.listNumEq is js = true ∧ p.lines = q.lines) ∧
    (Instruction.listNumEq is js = true →
      p.encode.length = q.encode.length ∧
      (∀ k, boundary p.encode k = boundary q.encode k) ∧
      (∀ offset,
        p.encode[offset]? ≠ q.encode[offset]? →
        ∃ (k : Nat) (s : Bool),
          is[k]? = some (.immediate (Value.zero s)) ∧
          js[k]? = some (.immediate (Value.zero !s)) ∧
          offset = boundary p.encode k + 4 ∧
          p.encode[offset]? = some (Value.signByte s) ∧
          q.encode[offset]? = some (Value.signByte !s)) ∧
      ∀ (σ : Type) (m : Machine σ) (log log' : σ),
        (m.tryExecute p.encode log).2.map Option.isSome =
          (m.tryExecute q.encode log').2.map Option.isSome) ∧
    (p.encode = q.encode →
      (Instruction.listNumEq is js = true ↔ WithoutNaN)) ∧
    ∃ found : List Instruction,
      decode p.encode = .ok found ∧
      (Instruction.listNumEq found is = true ↔ WithoutNaN) := by
  intro is js WithoutNaN
  refine ⟨?_, ?_, ?_, ?_, ?_⟩
  · rw [Instruction.listNumEq_iff_getElem?]
    simp only [Instruction.numEq_eq_true_iff, Value.numEq_eq_true_iff]
  · rw [numEq, Bool.and_eq_true, decide_eq_true_iff]
  · intro h
    have hagree := agreeOutsideOperands_of_listNumEq h
    refine ⟨length_encode_of_listNumEq h, ?_, ?_, ?_⟩
    · intro k
      exact (hagree.boundary_eq k).symm
    · intro offset hne
      exact exists_zero_of_getElem?_ne h hne
    · intro σ m log log'
      exact (m.shape_of_agree log log' hagree).symm
  · intro hbytes
    have hsame : is = js := encode_injective hbytes
    rw [← hsame]
    exact Instruction.listNumEq_self_iff
  · exact ⟨is, decode_encode is, Instruction.listNumEq_self_iff⟩

/-- Two zeros that are equal and have different bytes, and a NaN with the same bytes as itself. -/
theorem Program.numEq_and_wireForm_zeros :
    let plus : Program :=
      ⟨[.immediate (.zero false), .negate, .ret], [1, 1, 2], rfl⟩
    let minus : Program :=
      ⟨[.immediate (.zero true), .negate, .ret], [1, 1, 2], rfl⟩
    let invalid : Program := ⟨[.immediate .nan], [1], rfl⟩
    plus.numEq minus = true ∧
      plus.encode ≠ minus.encode ∧
      (∀ k, boundary plus.encode k = boundary minus.encode k) ∧
      (∀ (σ : Type) (m : Machine σ) (log : σ),
        (m.tryExecute plus.encode log).2.map Option.isSome =
          (m.tryExecute minus.encode log).2.map Option.isSome) ∧
      Instruction.listNumEq invalid.instructions invalid.instructions =
        false := by
  intro plus minus invalid
  obtain ⟨_, hequal, hconsequences, _⟩ := numEq_and_wireForm plus minus
  obtain ⟨_, _, _, hsame, _⟩ := numEq_and_wireForm invalid invalid
  have hlists :
      Instruction.listNumEq plus.instructions minus.instructions = true := by
    decide
  obtain ⟨_, hboundaries, _, hruns⟩ := hconsequences hlists
  refine ⟨hequal.mpr ⟨hlists, rfl⟩, by decide, hboundaries, ?_, ?_⟩
  · intro σ m log
    exact hruns σ m log log
  · rw [Bool.eq_false_iff]
    intro h
    have hnumber := (hsame rfl).mp h .nan (List.mem_singleton.mpr rfl)
    cases hnumber

end NumericEquality

end ArithMachine
