import ArithMachine.Decoding
import ArithMachine.Program.Basic
import Mathlib

/-!
# The wire format

This module relates reading and writing of instructions.

A byte string begins in one of four ways: it is empty, its first byte is no tag,
its first byte is the immediate tag and fewer than four bytes follow, or it
begins with the wire form of an instruction.  `Front` states the four cases, and
reading an instruction is determined in each of them.

Decoding splits any byte string into the wire form of the instructions it finds
and the place at which it stops.  On the wire form of a list of instructions,
whatever follows, it finds that list first.

We prove that decoding and encoding are inverse to one another.  Nothing is
assumed about values: instructions are compared with their words, so that NaN
payloads and signs of zero are covered.
-/

namespace ArithMachine

section WireFormat

/-- The tags are told apart by their bytes. -/
theorem Opcode.ofByte?_eq_some_iff
    {byte : UInt8} {op : Opcode} :
    Opcode.ofByte? byte = some op ↔ byte = op.toByte := by
  constructor
  · intro h
    exact (Opcode.toByte_of_ofByte? h).symm
  · rintro rfl
    exact Opcode.ofByte?_toByte op

theorem Opcode.ofByte?_eq_none_iff
    {byte : UInt8} :
    Opcode.ofByte? byte = none ↔
      ¬ (1 ≤ byte.toNat ∧ byte.toNat ≤ 7) := by
  rw [← Opcode.ofByte?_isSome_iff, Option.not_isSome_iff_eq_none]

/-- Only an immediate instruction has the tag of one. -/
theorem Instruction.exists_immediate_of_tag
    {i : Instruction}
    (h : i.opcode.toByte = Opcode.immediate.toByte) :
    ∃ value : Value, i = .immediate value := by
  have hopcode : some i.opcode = some .immediate := by
    rw [← Opcode.ofByte?_toByte, h, Opcode.ofByte?_toByte]
  cases i with
  | immediate value => exact ⟨value, rfl⟩
  | ret | negate | binary => cases hopcode

/-- How a byte string may begin. -/
inductive Front : List UInt8 → Prop
  | done : Front []
  | unknown
      {byte : UInt8} (rest : List UInt8)
      (htag : Opcode.ofByte? byte = none) :
      Front (byte :: rest)
  | truncated
      {rest : List UInt8}
      (hshort : rest.length < 4) :
      Front (Opcode.immediate.toByte :: rest)
  | instruction
      (i : Instruction) (rest : List UInt8) :
      Front (i.encode ++ rest)

/-- There is no fifth way to begin. -/
theorem front (bytes : List UInt8) : Front bytes := by
  cases bytes with
  | nil => exact .done
  | cons byte rest =>
      cases htag : Opcode.ofByte? byte with
      | none => exact .unknown rest htag
      | some op =>
          obtain rfl := Opcode.ofByte?_eq_some_iff.mp htag
          cases op with
          | ret => exact .instruction .ret rest
          | negate => exact .instruction .negate rest
          | binary op => exact .instruction (.binary op) rest
          | immediate =>
              rcases rest with
                _ | ⟨b0, _ | ⟨b1, _ | ⟨b2, _ | ⟨b3, behind⟩⟩⟩⟩
              · exact .truncated (by simp)
              · exact .truncated (by simp)
              · exact .truncated (by simp)
              · exact .truncated (by simp)
              · have hvalue :
                    (Value.ofOperand ⟨b0, b1, b2, b3⟩).encode =
                      [b0, b1, b2, b3] := by
                  rw [Value.encode, Value.toOperand_ofOperand]
                  rfl
                have hfront :=
                  Front.instruction
                    (.immediate (.ofOperand ⟨b0, b1, b2, b3⟩)) behind
                rwa [Instruction.encode, Instruction.operandBytes,
                  hvalue] at hfront

namespace Cursor

variable {position : Nat} {rest : List UInt8}

theorem readInstruction_done :
    (Cursor.mk position []).readInstruction =
      .error (.unexpectedEnd position) := rfl

theorem readInstruction_unknown
    {byte : UInt8}
    (htag : Opcode.ofByte? byte = none) :
    (Cursor.mk position (byte :: rest)).readInstruction =
      .error (.unknownOpcode byte position) := by
  simp [readInstruction, readByte, htag]

theorem readInstruction_truncated
    (hshort : rest.length < 4) :
    (Cursor.mk position (Opcode.immediate.toByte :: rest)).readInstruction =
      .error (.unexpectedEnd (position + 1)) := by
  have hvalue :
      (Cursor.mk (position + 1) rest).readValue =
        (.error (.unexpectedEnd (position + 1)), ⟨position + 1, rest⟩) :=
    readValue_eq_error_iff.mpr ⟨hshort, rfl, rfl⟩
  simp [readInstruction, readByte, hvalue]

theorem readInstruction_encode
    (i : Instruction) :
    (Cursor.mk position (i.encode ++ rest)).readInstruction =
      .ok (i, ⟨position + i.encodedLength, rest⟩) := by
  have hbyte :
      (Cursor.mk position (i.encode ++ rest)).readByte =
        (.ok i.opcode.toByte,
          ⟨position + 1, i.operandBytes ++ rest⟩) := rfl
  cases i with
  | immediate value =>
      have hvalue :
          (Cursor.mk (position + 1) (value.encode ++ rest)).readValue =
            (.ok value, ⟨position + 5, rest⟩) :=
        readValue_eq_ok_iff.mpr ⟨rfl, rfl⟩
      simp only [Instruction.operandBytes] at hbyte
      simp [readInstruction, hbyte, hvalue, Instruction.opcode,
        Instruction.encodedLength, Opcode.operandLength]
  | ret | negate | binary op =>
      simp [readInstruction, hbyte, Instruction.opcode,
        Instruction.operandBytes, Instruction.encodedLength,
        Opcode.operandLength]

/-- Reading an instruction succeeds in front of a wire form only. -/
theorem readInstruction_eq_ok_iff
    {c next : Cursor} {i : Instruction} :
    c.readInstruction = .ok (i, next) ↔
      c.rest = i.encode ++ next.rest ∧
      next.position = c.position + i.encodedLength := by
  constructor
  · intro h
    rcases c with ⟨position, rest⟩
    cases front rest with
    | done => simp [readInstruction_done] at h
    | unknown rest htag => simp [readInstruction_unknown htag] at h
    | truncated hshort => simp [readInstruction_truncated hshort] at h
    | instruction j rest =>
        rw [readInstruction_encode] at h
        cases h
        exact ⟨rfl, rfl⟩
  · rintro ⟨hrest, hposition⟩
    rcases c with ⟨position, rest⟩
    rcases next with ⟨behind, after⟩
    dsimp only at hrest hposition
    subst rest behind
    exact readInstruction_encode i

theorem readInstruction_of_encode_cons
    {c : Cursor} {i : Instruction} {is : List Instruction}
    (hrest : c.rest = ArithMachine.encode (i :: is) ++ rest) :
    c.readInstruction =
      .ok (i,
        ⟨c.position + i.encodedLength, ArithMachine.encode is ++ rest⟩) := by
  rw [encode_cons, List.append_assoc] at hrest
  exact readInstruction_eq_ok_iff.mpr ⟨hrest, rfl⟩

end Cursor

namespace Decoding

theorem ofCursor_done (position : Nat) :
    ofCursor ⟨position, []⟩ = ⟨[], none⟩ := by
  rw [ofCursor_eq]
  rfl

theorem ofCursor_fault
    {c : Cursor} {fault : Fault}
    (hmore : c.rest ≠ [])
    (hread : c.readInstruction = .error fault) :
    ofCursor c = ⟨[], some fault⟩ := by
  have hempty : c.isEmpty = false := by
    simpa [Cursor.isEmpty] using hmore
  rw [ofCursor_eq]
  simp [hempty, hread]

theorem ofCursor_instruction
    (position : Nat) (i : Instruction) (rest : List UInt8) :
    ofCursor ⟨position, i.encode ++ rest⟩ =
      let behind := ofCursor ⟨position + i.encodedLength, rest⟩
      ⟨i :: behind.instructions, behind.fault?⟩ := by
  rw [ofCursor_eq, Cursor.readInstruction_encode]
  rfl

/-- Decoding finds the instructions of a wire form and goes on behind them. -/
theorem ofCursor_encode_append
    (position : Nat) (is : List Instruction) (rest : List UInt8) :
    ofCursor ⟨position, encode is ++ rest⟩ =
      let behind := ofCursor ⟨position + (encode is).length, rest⟩
      ⟨is ++ behind.instructions, behind.fault?⟩ := by
  induction is generalizing position with
  | nil => rfl
  | cons i is ih =>
      rw [encode_cons, List.append_assoc, ofCursor_instruction, ih]
      simp [Nat.add_assoc]

/--
The bytes from a cursor on are the wire form of the instructions that decoding
finds, followed by what it stops at: nothing, or bytes in front of which no
instruction can be read.
-/
theorem ofCursor_stops (c : Cursor) :
    ∃ stop : Cursor,
      c.rest = encode (ofCursor c).instructions ++ stop.rest ∧
      stop.position =
        c.position + (encode (ofCursor c).instructions).length ∧
      match (ofCursor c).fault? with
      | none => stop.rest = []
      | some fault =>
          stop.rest ≠ [] ∧ stop.readInstruction = .error fault := by
  induction c using Decoding.ofCursor.induct with
  | case1 c hempty =>
      rcases c with ⟨position, rest⟩
      obtain rfl : rest = [] := by
        simpa [Cursor.isEmpty] using hempty
      exact ⟨⟨position, []⟩, by simp [ofCursor_done]⟩
  | case2 c hempty fault hread =>
      have hmore : c.rest ≠ [] := by
        simpa [Cursor.isEmpty] using hempty
      have hfault := ofCursor_fault hmore hread
      exact ⟨c, by simp [hfault, hmore, hread]⟩
  | case3 c hempty i next hread ih =>
      obtain ⟨hrest, hposition⟩ :=
        Cursor.readInstruction_eq_ok_iff.mp hread
      rcases ih with ⟨stop, hstopRest, hstopPosition, hend⟩
      have hfound :
          ofCursor c =
            ⟨i :: (ofCursor next).instructions,
              (ofCursor next).fault?⟩ := by
        rw [ofCursor_eq]
        simp [hempty, hread]
      refine ⟨stop, ?_, ?_, ?_⟩
      · rw [hfound, hrest, hstopRest, encode_cons, List.append_assoc]
      · rw [hfound, hstopPosition, hposition]
        simp [Nat.add_assoc]
      · rw [hfound]
        exact hend

end Decoding

/-- Decoding what was encoded gives it back. -/
theorem decode_encode (is : List Instruction) :
    decode (encode is) = .ok is := by
  have hfound := Decoding.ofCursor_encode_append 0 is []
  rw [List.append_nil, Decoding.ofCursor_done] at hfound
  simp [decode, Decoding.ofBytes, Cursor.ofBytes, hfound,
    Decoding.result]

/-- Only what was encoded is decoded. -/
theorem encode_of_decode
    {bytes : List UInt8} {is : List Instruction}
    (h : decode bytes = .ok is) :
    encode is = bytes := by
  obtain ⟨stop, hrest, _, hend⟩ :=
    Decoding.ofCursor_stops (.ofBytes bytes)
  rw [decode, Decoding.result, Decoding.ofBytes] at h
  split at h
  · rename_i hfault
    cases h
    rw [hfault] at hend
    rw [hend, List.append_nil] at hrest
    exact hrest.symm
  · cases h

/-- Two lists of instructions with one wire form are the same list. -/
theorem encode_injective
    {is js : List Instruction}
    (h : encode is = encode js) :
    is = js := by
  have hdecode : decode (encode is) = .ok js := by
    rw [h]
    exact decode_encode js
  rw [decode_encode] at hdecode
  exact Except.ok.inj hdecode

theorem length_encode_eq_sum
    (is : List Instruction) :
    (encode is).length = (is.map Instruction.encodedLength).sum := by
  simp [encode, List.length_flatMap]

/-- The wire form of a list, split at the place of an instruction. -/
theorem encode_of_getElem?
    {is : List Instruction} {k : Nat} {i : Instruction}
    (h : is[k]? = some i) :
    encode is =
      encode (is.take k) ++ (i.encode ++ encode (is.drop (k + 1))) := by
  obtain ⟨hk, rfl⟩ := List.getElem?_eq_some_iff.mp h
  rw [← encode_cons, ← List.drop_eq_getElem_cons hk, ← encode_append,
    List.take_append_drop]

/-- What follows a wire form within a wire form is the wire form of the remaining list. -/
theorem exists_of_encode_eq_append
    {is js : List Instruction} {rest : List UInt8}
    (h : encode js = encode is ++ rest) :
    ∃ ks, js = is ++ ks ∧ rest = encode ks := by
  have hfound := Decoding.ofCursor_encode_append 0 is rest
  have hwhole := Decoding.ofCursor_encode_append 0 js []
  rw [List.append_nil, h, hfound, Decoding.ofCursor_done] at hwhole
  obtain ⟨hlist, -⟩ := Decoding.mk.inj hwhole
  rw [List.append_nil] at hlist
  refine ⟨_, hlist.symm, ?_⟩
  rw [← hlist, encode_append] at h
  exact (List.append_cancel_left h).symm

/--
Wire forms and programs correspond: a byte string decodes to the instructions of
a program exactly when it is the wire form of the program.  Decoding accepts the
concatenations of encoded instructions and nothing else, and programs share
their wire form exactly when they share their instructions, whatever their lines
are.
-/
theorem wireForm_bijective :
    (∀ p : Program, decode p.encode = .ok p.instructions) ∧
    (∀ (bytes : List UInt8) (p : Program),
      decode bytes = .ok p.instructions ↔ p.encode = bytes) ∧
    (∀ bytes : List UInt8,
      (∃ is, decode bytes = .ok is) ↔
        ∃ is : List Instruction,
          bytes = (is.map Instruction.encode).flatten) ∧
    (∀ p q : Program,
      p.encode = q.encode ↔ p.instructions = q.instructions) := by
  refine ⟨?_, ?_, ?_, ?_⟩
  · intro p
    exact decode_encode p.instructions
  · intro bytes p
    constructor
    · exact encode_of_decode
    · rintro rfl
      exact decode_encode p.instructions
  · intro bytes
    constructor
    · rintro ⟨is, h⟩
      exact ⟨is, (encode_of_decode h).symm⟩
    · rintro ⟨is, rfl⟩
      exact ⟨is, decode_encode is⟩
  · intro p q
    constructor
    · exact encode_injective
    · intro h
      rw [Program.encode, Program.encode, h]

end WireFormat

end ArithMachine
