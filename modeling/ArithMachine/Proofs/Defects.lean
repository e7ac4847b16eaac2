import ArithMachine.Proofs.Boundaries
import ArithMachine.Proofs.Refinement
import ArithMachine.Proofs.Transcripts

/-!
# Where reading fails

Bytes that are no wire form have a defect: behind the wire form of some
instructions stands a byte that is no tag, or an immediate tag with fewer than
four bytes behind it.  `Defect` lists the two cases, each with the fault that
names it.

We prove that decoding fails exactly on the byte strings that have a defect, and
with the fault of the defect.  A byte string has at most one, so that the fault
determines how far the bytes can be read.  A run that ends with a fault of
reading has performed all that stands before the defect.
-/

namespace ArithMachine

section Defects

/-- Bytes from an offset on that begin with no instruction, and the fault of reading them. -/
inductive Defect (offset : Nat) : List UInt8 → Fault → Prop
  | unknown
      {byte : UInt8} (rest : List UInt8)
      (htag : ¬ (1 ≤ byte.toNat ∧ byte.toNat ≤ 7)) :
      Defect offset (byte :: rest) (.unknownOpcode byte offset)
  | truncated
      {rest : List UInt8}
      (hshort : rest.length < 4) :
      Defect offset (2 :: rest) (.unexpectedEnd (offset + 1))

/-- A fault names the byte that is no tag, or the offset behind an immediate tag near the end. -/
def Fault.PointsInto (bytes : List UInt8) : Fault → Prop
  | unknownOpcode byte offset => bytes[offset]? = some byte
  | unexpectedEnd offset =>
      0 < offset ∧ bytes[offset - 1]? = some 2 ∧
        bytes.length - 3 ≤ offset ∧ offset ≤ bytes.length
  | _ => False

namespace Defect

variable {offset : Nat} {rest : List UInt8} {fault : Fault}

theorem readInstruction
    (h : Defect offset rest fault) :
    rest ≠ [] ∧
      (Cursor.mk offset rest).readInstruction = .error fault := by
  cases h with
  | unknown rest htag =>
      refine ⟨List.cons_ne_nil _ _, ?_⟩
      exact Cursor.readInstruction_unknown
        (Opcode.ofByte?_eq_none_iff.mpr htag)
  | truncated hshort =>
      refine ⟨List.cons_ne_nil _ _, ?_⟩
      exact Cursor.readInstruction_truncated hshort

/-- A defect is the only reason for which an instruction cannot be read. -/
theorem of_readInstruction
    (hmore : rest ≠ [])
    (h : (Cursor.mk offset rest).readInstruction = .error fault) :
    Defect offset rest fault := by
  cases front rest with
  | done => exact absurd rfl hmore
  | unknown rest htag =>
      rw [Cursor.readInstruction_unknown htag] at h
      cases h
      exact .unknown rest (Opcode.ofByte?_eq_none_iff.mp htag)
  | truncated hshort =>
      rw [Cursor.readInstruction_truncated hshort] at h
      cases h
      exact .truncated hshort
  | instruction i rest =>
      rw [Cursor.readInstruction_encode] at h
      cases h

/-- Decoding reads as far as the defect, and stops there. -/
theorem ofBytes
    {is : List Instruction}
    (h : Defect (encode is).length rest fault) :
    Decoding.ofBytes (encode is ++ rest) = ⟨is, some fault⟩ := by
  obtain ⟨hmore, hread⟩ := h.readInstruction
  rw [Decoding.ofBytes, Cursor.ofBytes, Decoding.ofCursor_encode_append]
  simp only [Nat.zero_add]
  rw [Decoding.ofCursor_fault hmore hread, List.append_nil]

/-- A byte string has one defect at most. -/
theorem unique
    {is js : List Instruction} {more : List UInt8} {fault' : Fault}
    (h : Defect (encode is).length rest fault)
    (h' : Defect (encode js).length more fault')
    (hbytes : encode is ++ rest = encode js ++ more) :
    is = js ∧ rest = more ∧ fault = fault' := by
  have hsame := h.ofBytes
  rw [hbytes, h'.ofBytes] at hsame
  cases hsame
  exact ⟨rfl, List.append_cancel_left hbytes, rfl⟩

theorem pointsInto
    {bytes : List UInt8}
    (hdrop : bytes.drop offset = rest)
    (h : Defect offset rest fault) :
    fault.PointsInto bytes := by
  cases h with
  | unknown rest =>
      exact (getElem?_of_drop_eq_cons hdrop).1
  | truncated hshort =>
      obtain ⟨htag, hlength⟩ := getElem?_of_drop_eq_cons hdrop
      refine ⟨Nat.succ_pos offset, htag, ?_, ?_⟩
      · omega
      · omega

end Defect

/-- Decoding fails where there is a defect, and nowhere else. -/
theorem decode_eq_error_iff
    {bytes : List UInt8} {fault : Fault} :
    decode bytes = .error fault ↔
      ∃ (is : List Instruction) (rest : List UInt8),
        bytes = encode is ++ rest ∧
        Defect (encode is).length rest fault := by
  constructor
  · intro h
    obtain ⟨stop, hrest, hposition, hend⟩ :=
      Decoding.ofCursor_stops (.ofBytes bytes)
    rw [← Decoding.ofBytes] at hrest hposition hend
    have hstop :
        stop.position =
          (encode (Decoding.ofBytes bytes).instructions).length :=
      hposition.trans (Nat.zero_add _)
    rw [decode, Decoding.result] at h
    split at h
    · cases h
    · rename_i found hfault
      cases h
      rw [hfault] at hend
      obtain ⟨hmore, hread⟩ := hend
      refine ⟨_, stop.rest, hrest, ?_⟩
      rw [← hstop]
      exact Defect.of_readInstruction hmore hread
  · rintro ⟨is, rest, rfl, hdefect⟩
    rw [decode, Decoding.result, hdefect.ofBytes]

/-- A run that ends with a fault of reading has come to a defect. -/
theorem Ends.defect
    {s : State} {last : List Event} {fault : Fault}
    (hreading : fault.OfReading)
    (h : Ends s last (.error fault)) :
    Defect s.cursor.position s.cursor.rest fault := by
  cases h with
  | done => exact hreading.elim
  | unknown hrest htag =>
      rw [hrest]
      exact .unknown _ (Opcode.ofByte?_eq_none_iff.mp htag)
  | truncated hrest hshort =>
      rw [hrest]
      exact .truncated hshort
  | stop _ hstops =>
      exact absurd rfl (hstops.ne_fault.2 fault hreading)

namespace Machine

variable {σ : Type}

/--
A fault of reading locates the first place at which no instruction can be read.

Decoding fails exactly on the wire form of some instructions followed by a defect,
with the fault of the defect and with no other fault.  The instructions, what
follows them and the fault are unique.  A run that ends with a fault of reading
has performed the instructions before the defect, and ends at it.  Either way the
fault points at the byte that is no tag, or just behind an immediate tag among
the last four bytes.
-/
theorem reading_faults_located
    (m : Machine σ) (bytes : List UInt8) (log : σ) :
    (∀ fault : Fault,
      decode bytes = .error fault ↔
        ∃ (is : List Instruction) (rest : List UInt8),
          bytes = encode is ++ rest ∧
          Defect (encode is).length rest fault) ∧
    (∀ (is js : List Instruction) (rest more : List UInt8)
        (fault fault' : Fault),
      bytes = encode is ++ rest →
      Defect (encode is).length rest fault →
      bytes = encode js ++ more →
      Defect (encode js).length more fault' →
      is = js ∧ rest = more ∧ fault = fault') ∧
    (∀ fault : Fault,
      decode bytes = .error fault → fault.PointsInto bytes) ∧
    (∀ fault : Fault, fault.OfReading →
      (m.tryExecute bytes log).2 = .error fault →
      ∃ (turns : Nat) (log' : σ) (s : State),
        let start := State.initial m.config bytes
        let is := m.executed turns start log
        m.advance turns start log = some (log', s) ∧
        m.advance (turns + 1) start log = none ∧
        is.length = turns ∧
        bytes = encode is ++ s.cursor.rest ∧
        s.cursor.position = (encode is).length ∧
        Defect (encode is).length s.cursor.rest fault ∧
        fault.PointsInto bytes) := by
  refine ⟨?_, ?_, ?_, ?_⟩
  · intro fault
    exact decode_eq_error_iff
  · intro is js rest more fault fault' hbytes hdefect hbytes' hdefect'
    exact hdefect.unique hdefect' (hbytes.symm.trans hbytes')
  · intro fault h
    obtain ⟨is, rest, rfl, hdefect⟩ := decode_eq_error_iff.mp h
    exact hdefect.pointsInto List.drop_left
  · intro fault hreading h
    obtain ⟨is, t, last, answer, hcourse⟩ :=
      exists_course_initial m.config bytes
    have hanswer : answer = .error fault := by
      rw [← h, tryExecute, hcourse.run]
    rw [hanswer] at hcourse
    obtain ⟨hadvance, hended⟩ := hcourse.advance m log
    obtain ⟨hlength, hread, hposition, _⟩ := carriesOut_executed hadvance
    obtain ⟨_, hdrop, _⟩ := hcourse.cursor_of_initial
    have hdefect := hcourse.ends.defect hreading
    have hwhere := hposition.trans (Nat.zero_add _)
    refine ⟨is.length, _, t, hadvance, hended, hlength, hread, hwhere, ?_,
      hdefect.pointsInto hdrop⟩
    rw [← hwhere]
    exact hdefect

/-- A byte that is no tag behind an immediate, and a run that meets an operand cut short. -/
theorem reading_faults_located_cases :
    let m : Machine Unit := ⟨⟨1⟩, .silent⟩
    let five : Instruction := .immediate ⟨0x40a00000⟩
    let unknown : List UInt8 := [2, 0, 0, 160, 64, 9, 1]
    let truncated : List UInt8 := [2, 0, 0, 160, 64, 2, 7, 7]
    decode unknown = .error (.unknownOpcode 9 5) ∧
      unknown[5]? = some 9 ∧
    (∀ (is : List Instruction) (rest : List UInt8) (fault : Fault),
      unknown = encode is ++ rest →
      Defect (encode is).length rest fault →
      [five] = is ∧ [9, 1] = rest ∧ .unknownOpcode 9 5 = fault) ∧
    (m.tryExecute truncated ()).2 = .error (.unexpectedEnd 6) ∧
      ∃ s : State,
        m.advance 1 (.initial m.config truncated) () = some ((), s) ∧
        s.cursor.position = 5 ∧
        Defect 5 s.cursor.rest (.unexpectedEnd 6) := by
  intro m five unknown truncated
  obtain ⟨hdecode, hunique, hpoints, _⟩ :=
    m.reading_faults_located unknown ()
  have hbytes : unknown = encode [five] ++ [9, 1] := by decide
  have hdefect :
      Defect (encode [five]).length [9, 1] (.unknownOpcode 9 5) :=
    .unknown [1] (by decide)
  have hfault : decode unknown = .error (.unknownOpcode 9 5) :=
    (hdecode _).mpr ⟨_, _, hbytes, hdefect⟩
  have hanswer :
      (m.tryExecute truncated ()).2 = .error (.unexpectedEnd 6) := by cbv
  obtain ⟨turns, log', s, hadvance, hended, _, _, hposition, hend, _⟩ :=
    (m.reading_faults_located truncated ()).2.2.2 (.unexpectedEnd 6)
      trivial hanswer
  refine ⟨hfault, hpoints _ hfault, ?_, hanswer, ?_⟩
  · intro is rest fault hsplit hstops
    exact hunique _ _ _ _ _ _ hbytes hdefect hsplit hstops
  · rcases turns with _ | _ | turns
    · cases hended
    · rw [← hposition] at hend
      obtain rfl : s = ⟨⟨5, [2, 7, 7]⟩, ⟨1, [⟨0x40a00000⟩]⟩⟩ := by
        cases hadvance
        rfl
      exact ⟨_, hadvance, rfl, hend⟩
    · cases hadvance

end Machine

end Defects

end ArithMachine
