import ArithMachine.Proofs.WireFormat

/-!
# Boundaries

Where the instructions of a byte string start is known by walking over it: the
first one starts at the first byte, and each one behind the tag and the operand
of the one before.  `boundary` walks over any byte string.  A byte that is no
tag counts as one without operand, and beyond the end the walk goes on by one.

On the wire form of instructions the boundaries are where they should be,
whatever bytes follow.  The bytes between two boundaries are operand bytes.
-/

namespace ArithMachine

section Boundaries

/-- How many operand bytes belong to the byte at an offset, read as a tag. -/
def operandLengthAt (bytes : List UInt8) (offset : Nat) : Nat :=
  match bytes[offset]?.bind Opcode.ofByte? with
  | some op => op.operandLength
  | none => 0

/-- The offset at which the instruction of this number starts. -/
def boundary (bytes : List UInt8) : Nat → Nat
  | 0 => 0
  | k + 1 => boundary bytes k + 1 + operandLengthAt bytes (boundary bytes k)

/-- The offset of one of the four bytes behind an immediate tag. -/
def InOperand (bytes : List UInt8) (offset : Nat) : Prop :=
  ∃ k, bytes[boundary bytes k]? = some 2 ∧
    boundary bytes k < offset ∧ offset ≤ boundary bytes k + 4

variable {bytes : List UInt8}

theorem drop_of_getElem?
    {offset : Nat} {byte : UInt8}
    (h : bytes[offset]? = some byte) :
    bytes.drop offset = byte :: bytes.drop (offset + 1) := by
  obtain ⟨hless, rfl⟩ := List.getElem?_eq_some_iff.mp h
  exact List.drop_eq_getElem_cons hless

theorem getElem?_of_drop_eq_cons
    {offset : Nat} {byte : UInt8} {rest : List UInt8}
    (h : bytes.drop offset = byte :: rest) :
    bytes[offset]? = some byte ∧
      bytes.length = offset + 1 + rest.length := by
  refine ⟨?_, ?_⟩
  · rw [← List.head?_drop, h]
    rfl
  · have hlength := congrArg List.length h
    rw [List.length_drop, List.length_cons] at hlength
    omega

/-- A byte string that goes on with an instruction has its tag there, and its operand behind it. -/
theorem getElem?_of_drop_eq_encode
    {offset : Nat} {i : Instruction} {rest : List UInt8}
    (h : bytes.drop offset = i.encode ++ rest) :
    bytes[offset]? = some i.opcode.toByte ∧
      offset + i.encodedLength ≤ bytes.length ∧
      bytes.drop (offset + i.encodedLength) = rest := by
  obtain ⟨htag, _⟩ := getElem?_of_drop_eq_cons h
  refine ⟨htag, ?_, ?_⟩
  · have hlength := congrArg List.length h
    rw [List.length_drop, List.length_append,
      Instruction.length_encode] at hlength
    have hpos := i.encodedLength_pos
    omega
  · rw [← List.drop_drop, h, ← i.length_encode, List.drop_left]

theorem operandLengthAt_of_tag
    {offset : Nat} {op : Opcode}
    (htag : bytes[offset]? = some op.toByte) :
    operandLengthAt bytes offset = op.operandLength := by
  rw [operandLengthAt, htag, Option.bind_some, Opcode.ofByte?_toByte]

/-- Behind an instruction comes the next boundary. -/
theorem boundary_succ_of_tag
    {k : Nat} (op : Opcode)
    (htag : bytes[boundary bytes k]? = some op.toByte) :
    boundary bytes (k + 1) =
      boundary bytes k + 1 + op.operandLength := by
  rw [boundary, operandLengthAt_of_tag htag]

theorem strictMono_boundary (bytes : List UInt8) :
    StrictMono (boundary bytes) := by
  refine strictMono_nat_of_lt_succ ?_
  intro k
  rw [boundary]
  omega

theorem encode_concat_append
    (is : List Instruction) (i : Instruction) (rest : List UInt8) :
    encode (is ++ [i]) ++ rest = encode is ++ (i.encode ++ rest) := by
  simp

/-- The boundary behind instructions is where their wire form ends. -/
theorem boundary_encode_append
    (is : List Instruction) (rest : List UInt8) :
    boundary (encode is ++ rest) is.length = (encode is).length := by
  induction is using List.reverseRecOn generalizing rest with
  | nil => rfl
  | append_singleton is i ih =>
      have hbefore := ih (i.encode ++ rest)
      have hdrop :
          (encode is ++ (i.encode ++ rest)).drop (encode is).length =
            i.encode ++ rest := List.drop_left
      obtain ⟨htag, _⟩ := getElem?_of_drop_eq_encode hdrop
      rw [← hbefore] at htag
      rw [encode_concat_append, List.length_append, List.length_singleton,
        boundary_succ_of_tag i.opcode htag, hbefore]
      simp [Instruction.encodedLength, Nat.add_assoc]

/-- At each boundary of a wire form stands the tag of its instruction. -/
theorem getElem?_boundary_encode
    {is : List Instruction} {k : Nat}
    (hk : k < is.length) (rest : List UInt8) :
    (encode is ++ rest)[boundary (encode is ++ rest) k]? =
      some is[k].opcode.toByte := by
  have hsplit :
      encode is ++ rest =
        encode (is.take k) ++
          (is[k].encode ++ (encode (is.drop (k + 1)) ++ rest)) := by
    rw [encode_of_getElem? (List.getElem?_eq_getElem hk), List.append_assoc,
      List.append_assoc]
  have hboundary :=
    boundary_encode_append (is.take k)
      (is[k].encode ++ (encode (is.drop (k + 1)) ++ rest))
  rw [List.length_take_of_le (Nat.le_of_lt hk)] at hboundary
  rw [hsplit, hboundary]
  exact (getElem?_of_drop_eq_encode List.drop_left).1

theorem getElem?_boundary
    {is : List Instruction} {k : Nat} {i : Instruction}
    (h : is[k]? = some i) :
    (encode is)[boundary (encode is) k]? = some i.opcode.toByte := by
  obtain ⟨hk, rfl⟩ := List.getElem?_eq_some_iff.mp h
  have htag := getElem?_boundary_encode hk []
  rwa [List.append_nil] at htag

/-- The boundary behind the last instruction is the length of the wire form. -/
theorem boundary_length
    (is : List Instruction) :
    boundary (encode is) is.length = (encode is).length := by
  have hend := boundary_encode_append is []
  rwa [List.append_nil] at hend

/-- Only an immediate tag has operand bytes. -/
theorem tag_of_operandLengthAt_pos
    {offset : Nat}
    (h : 0 < operandLengthAt bytes offset) :
    bytes[offset]? = some Opcode.immediate.toByte ∧
      operandLengthAt bytes offset = 4 := by
  cases hop : bytes[offset]?.bind Opcode.ofByte? with
  | none => simp [operandLengthAt, hop] at h
  | some op =>
      obtain ⟨byte, hbyte, htag⟩ := Option.bind_eq_some_iff.mp hop
      obtain rfl := Opcode.ofByte?_eq_some_iff.mp htag
      rw [operandLengthAt_of_tag hbyte] at h ⊢
      cases op with
      | immediate => exact ⟨hbyte, rfl⟩
      | ret | negate | binary => cases h

/-- Every offset lies between two neighbouring boundaries. -/
theorem exists_boundary_le
    (bytes : List UInt8) (offset : Nat) :
    ∃ k, boundary bytes k ≤ offset ∧ offset < boundary bytes (k + 1) := by
  have hnext (k : Nat) : boundary bytes k < boundary bytes (k + 1) :=
    strictMono_boundary bytes (Nat.lt_succ_self k)
  induction offset with
  | zero => exact ⟨0, Nat.le_refl 0, hnext 0⟩
  | succ offset ih =>
      obtain ⟨k, hbefore, hafter⟩ := ih
      by_cases hsame : offset + 1 < boundary bytes (k + 1)
      · exact ⟨k, by omega, hsame⟩
      · have hreached : boundary bytes (k + 1) = offset + 1 := by omega
        exact ⟨k + 1, Nat.le_of_eq hreached, hreached ▸ hnext (k + 1)⟩

/-- An offset is a boundary, or it lies within an operand. -/
theorem boundary_or_inOperand
    (bytes : List UInt8) (offset : Nat) :
    (∃ k, boundary bytes k = offset) ∨ InOperand bytes offset := by
  obtain ⟨k, hbefore, hafter⟩ := exists_boundary_le bytes offset
  rcases Nat.eq_or_lt_of_le hbefore with hstart | hwithin
  · exact Or.inl ⟨k, hstart⟩
  · rw [boundary] at hafter
    have hoperand : 0 < operandLengthAt bytes (boundary bytes k) := by
      omega
    obtain ⟨htag, hfour⟩ := tag_of_operandLengthAt_pos hoperand
    exact Or.inr ⟨k, htag, hwithin, by omega⟩

/-- No instruction starts within an operand. -/
theorem not_inOperand_boundary
    (bytes : List UInt8) (k : Nat) :
    ¬ InOperand bytes (boundary bytes k) := by
  rintro ⟨j, htag, hafter, hwithin⟩
  have hnext : boundary bytes (j + 1) = boundary bytes j + 1 + 4 :=
    boundary_succ_of_tag .immediate htag
  have hjk : j + 1 ≤ k := (strictMono_boundary bytes).lt_iff_lt.mp hafter
  have hle := (strictMono_boundary bytes).monotone hjk
  omega

end Boundaries

end ArithMachine
