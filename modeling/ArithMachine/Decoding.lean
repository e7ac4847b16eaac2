import ArithMachine.Cursor
import ArithMachine.Instruction

/-!
# Decoding

The wire format has neither header nor length: where an instruction ends is
known only from its tag.  Decoding therefore reads one instruction after the
other, and stops at the end of the bytes or at the first fault.

A `Decoding` keeps both the instructions read so far and the fault that ended
it; `decode` answers with the one or the other.
-/

namespace ArithMachine

section WireDecoding

/-- The instruction at a cursor, and the cursor behind it. -/
def Cursor.readInstruction (c : Cursor) : Except Fault (Instruction × Cursor) :=
  match c.readByte with
  | (.error fault, _) => .error fault
  | (.ok byte, next) =>
      match Opcode.ofByte? byte with
      | none => .error (.unknownOpcode byte c.position)
      | some .ret => .ok (.ret, next)
      | some .immediate =>
          match next.readValue with
          | (.error fault, _) => .error fault
          | (.ok value, behind) => .ok (.immediate value, behind)
      | some .negate => .ok (.negate, next)
      | some (.binary op) => .ok (.binary op, next)

theorem Cursor.readInstruction_shortens {c next : Cursor} {i : Instruction}
    (h : c.readInstruction = .ok (i, next)) :
    next.rest.length < c.rest.length := by
  unfold Cursor.readInstruction at h
  split at h
  · simp at h
  · rename_i byte after hbyte
    obtain ⟨hrest, _⟩ := Cursor.readByte_eq_ok_iff.mp hbyte
    split at h
    · simp at h
    · obtain ⟨_, rfl⟩ : Instruction.ret = i ∧ after = next := by simpa using h
      simp [hrest]
    · split at h
      · simp at h
      · rename_i value behind hvalue
        obtain ⟨hafter, _⟩ := Cursor.readValue_eq_ok_iff.mp hvalue
        obtain ⟨_, rfl⟩ : Instruction.immediate value = i ∧ behind = next := by
          simpa using h
        rw [hrest, hafter, List.length_cons, List.length_append]
        omega
    · obtain ⟨_, rfl⟩ : Instruction.negate = i ∧ after = next := by simpa using h
      simp [hrest]
    · rename_i op _
      obtain ⟨_, rfl⟩ : Instruction.binary op = i ∧ after = next := by simpa using h
      simp [hrest]

/-- The instructions that were read, and the fault that ended the reading, if one did. -/
structure Decoding where
  instructions : List Instruction
  fault? : Option Fault
deriving DecidableEq, Repr

namespace Decoding

/-- Reads instructions from a cursor on, as far as they go. -/
def ofCursor (c : Cursor) : Decoding :=
  if c.isEmpty then
    ⟨[], none⟩
  else
    match _hread : c.readInstruction with
    | .error fault => ⟨[], some fault⟩
    | .ok (i, next) =>
        let behind := ofCursor next
        ⟨i :: behind.instructions, behind.fault?⟩
termination_by c.rest.length
decreasing_by exact Cursor.readInstruction_shortens _hread

/-- Decoding reads one instruction, and goes on behind it unless the reading failed. -/
theorem ofCursor_eq (c : Cursor) :
    ofCursor c =
      if c.isEmpty then
        ⟨[], none⟩
      else
        match c.readInstruction with
        | .error fault => ⟨[], some fault⟩
        | .ok (i, next) =>
            ⟨i :: (ofCursor next).instructions, (ofCursor next).fault?⟩ := by
  rw [ofCursor]
  split
  · rfl
  · split <;> rename_i hread <;> simp [hread]

/-- Decodes a byte string from its start. -/
def ofBytes (bytes : List UInt8) : Decoding :=
  ofCursor (.ofBytes bytes)

/-- The instructions, if nothing but the end of the bytes ended the reading. -/
def result (d : Decoding) : Except Fault (List Instruction) :=
  match d.fault? with
  | none => .ok d.instructions
  | some fault => .error fault

end Decoding

/-- The instructions of which a byte string is the wire form. -/
def decode (bytes : List UInt8) : Except Fault (List Instruction) :=
  (Decoding.ofBytes bytes).result

end WireDecoding

end ArithMachine
