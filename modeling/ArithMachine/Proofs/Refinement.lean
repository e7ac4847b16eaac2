import ArithMachine.Proofs.Turns

/-!
# Running from the wire and running after decoding

The machine reads, looks up and performs one instruction at a time, and may
stop before it has seen the last byte.  This module compares it with the plain
way: decode as far as decoding goes, then evaluate the instructions found.

Where the evaluation ends at one of the instructions, the machine gives its
answer.  Where it runs out of instructions, the machine has arrived at the place
at which decoding stopped, and answers with what stopped it: the missing return
at the end of the bytes, or the very fault of the decoding.
-/

namespace ArithMachine

section Refinement

variable {σ : Type}

/-- The faults that arise from the bytes and not from the stack. -/
def Fault.OfReading : Fault → Prop
  | unknownOpcode _ _ => True
  | unexpectedEnd _ => True
  | _ => False

theorem Cursor.ofReading_of_readInstruction
    {c : Cursor} {fault : Fault}
    (h : c.readInstruction = .error fault) :
    fault.OfReading := by
  rcases c with ⟨position, rest⟩
  cases front rest with
  | done =>
      cases h
      trivial
  | unknown rest htag =>
      rw [readInstruction_unknown htag] at h
      cases h
      trivial
  | truncated hshort =>
      rw [readInstruction_truncated hshort] at h
      cases h
      trivial
  | instruction i rest =>
      rw [readInstruction_encode] at h
      cases h

/-- No instruction ends a run for want of a return or with a fault of reading. -/
theorem Stops.ne_fault
    {limit : Nat} {values : List Value} {i : Instruction}
    {answer : Answer}
    (h : Stops limit values i answer) :
    answer ≠ .error .missingReturn ∧
      ∀ fault : Fault, fault.OfReading → answer ≠ .error fault := by
  refine ⟨?_, ?_⟩
  · rintro rfl
    cases h
  · rintro fault hfault rfl
    cases h with
    | overflow | negate | binary => exact hfault

theorem ne_fault_of_performAll
    {limit : Nat} {is : List Instruction} {answer : Answer}
    (h : performAll (.empty limit) is = .error answer) :
    answer ≠ .error .missingReturn ∧
      ∀ fault : Fault, fault.OfReading → answer ≠ .error fault := by
  obtain ⟨_, _, _, _, _, _, hstops⟩ :=
    stops_of_performAll (Stack.fits_empty limit) h
  exact hstops.ne_fault

theorem evaluate_eq
    (limit : Nat) (is : List Instruction) :
    evaluate limit is =
      match performAll (.empty limit) is with
      | .ok _ => .error .missingReturn
      | .error answer => answer :=
  evaluateFrom_eq (Stack.fits_empty limit) is

/-- The machine performs the decoded instructions and then meets the end of the decoding. -/
theorem Machine.tryExecute_eq
    (m : Machine σ) (bytes : List UInt8) (log : σ) :
    (m.tryExecute bytes log).2 =
      match performAll (.empty m.config.maxStack)
          (Decoding.ofBytes bytes).instructions with
      | .error answer => answer
      | .ok _ =>
          match decode bytes with
          | .ok _ => .error .missingReturn
          | .error fault => .error fault := by
  obtain ⟨stop, hrest, hposition, hend⟩ :=
    Decoding.ofCursor_stops (.ofBytes bytes)
  have hstart :
      (State.initial m.config bytes).cursor.rest =
        encode (Decoding.ofBytes bytes).instructions ++ stop.rest := hrest
  rw [Machine.tryExecute]
  cases hperform :
      performAll (.empty m.config.maxStack)
        (Decoding.ofBytes bytes).instructions with
  | error answer => exact run_of_performAll_error log hstart hperform
  | ok stack =>
      rw [run_of_performAll_ok log hstart hperform]
      have hstop :
          (⟨(State.initial m.config bytes).cursor.position +
              (encode (Decoding.ofBytes bytes).instructions).length,
            stop.rest⟩ : Cursor) = stop :=
        Cursor.ext hposition.symm rfl
      rw [hstop, decode, Decoding.result]
      rw [← Decoding.ofBytes] at hend
      cases hfault : (Decoding.ofBytes bytes).fault? with
      | none =>
          rw [hfault] at hend
          rw [run_done hend]
      | some fault =>
          rw [hfault] at hend
          rw [run_fault hend.1 hend.2]

/-- A fault of reading in a run is the one at which decoding stops. -/
theorem Machine.decode_of_tryExecute
    {m : Machine σ} {bytes : List UInt8} {log : σ} {fault : Fault}
    (hreading : fault.OfReading)
    (h : (m.tryExecute bytes log).2 = .error fault) :
    decode bytes = .error fault := by
  rw [Machine.tryExecute_eq] at h
  split at h
  · rename_i answer hperform
    exact absurd h ((ne_fault_of_performAll hperform).2 fault hreading)
  · split at h
    · cases h
      exact hreading.elim
    · rename_i found hdecode
      cases h
      exact hdecode

/--
The machine refines decoding followed by evaluation.

Where the evaluation of the instructions found has an answer, this is the answer
of the machine; where it misses a return, the machine answers with the missing
return if the bytes could be decoded, and with the fault of the decoding
otherwise.  Faults of reading are the same in both, and do not occur in a run of
bytes that can be decoded.
-/
theorem Machine.tryExecute_refines_evaluate
    (m : Machine σ) (bytes : List UInt8) (log : σ) :
    let plain :=
      evaluate m.config.maxStack (Decoding.ofBytes bytes).instructions
    let answer := (m.tryExecute bytes log).2
    (plain ≠ .error .missingReturn → answer = plain) ∧
    (plain = .error .missingReturn →
      answer =
        match decode bytes with
        | .ok _ => .error .missingReturn
        | .error fault => .error fault) ∧
    (∀ fault : Fault, fault.OfReading →
      answer = .error fault → decode bytes = .error fault) ∧
    ((∃ is, decode bytes = .ok is) →
      ∀ fault : Fault, fault.OfReading → answer ≠ .error fault) := by
  intro plain answer
  have hplain : plain = _ := evaluate_eq _ _
  have hanswer : answer = _ := m.tryExecute_eq bytes log
  refine ⟨?_, ?_, ?_, ?_⟩
  · intro hne
    rw [hanswer]
    split
    · rename_i found hperform
      rw [hplain, hperform]
    · rename_i stack hperform
      rw [hperform] at hplain
      exact absurd hplain hne
  · intro hmissing
    rw [hanswer]
    split
    · rename_i found hperform
      rw [hperform] at hplain
      exact absurd (hplain.symm.trans hmissing)
        (ne_fault_of_performAll hperform).1
    · rfl
  · intro fault hreading h
    exact Machine.decode_of_tryExecute hreading h
  · rintro ⟨is, hdecode⟩ fault hreading h
    rw [Machine.decode_of_tryExecute hreading h] at hdecode
    cases hdecode

/-- A run that outlasts its evaluation, one that does not, and one over bytes that can be decoded. -/
theorem Machine.tryExecute_refines_evaluate_cases :
    let m : Machine Unit := ⟨⟨1⟩, .silent⟩
    let unknown : List UInt8 := [2, 0, 0, 160, 64, 3, 9]
    let full : List UInt8 := [2, 0, 0, 160, 64, 2, 0, 0, 0, 0, 9]
    let whole : List UInt8 := [2, 0, 0, 160, 64]
    (m.tryExecute unknown ()).2 = .error (.unknownOpcode 9 6) ∧
      decode unknown = .error (.unknownOpcode 9 6) ∧
    (m.tryExecute full ()).2 = .error (.stackOverflow 1) ∧
    (m.tryExecute whole ()).2 = .error .missingReturn ∧
      (m.tryExecute whole ()).2 ≠ .error (.unexpectedEnd 5) := by
  intro m unknown full whole
  have hunknown :
      decode unknown = .error (.unknownOpcode 9 6) := by cbv
  have hwhole :
      decode whole = .ok [.immediate ⟨0x40a00000⟩] := by cbv
  have hfull :
      evaluate 1 (Decoding.ofBytes full).instructions =
        .error (.stackOverflow 1) := by cbv
  have hne :
      evaluate 1 (Decoding.ofBytes full).instructions ≠
        .error .missingReturn := by
    rw [hfull]
    rintro h
    cases h
  have hrun :
      (m.tryExecute unknown ()).2 = .error (.unknownOpcode 9 6) := by
    rw [(m.tryExecute_refines_evaluate unknown ()).2.1 (by cbv), hunknown]
  refine ⟨hrun, ?_, ?_, ?_, ?_⟩
  · exact (m.tryExecute_refines_evaluate unknown ()).2.2.1 _ trivial hrun
  · exact ((m.tryExecute_refines_evaluate full ()).1 hne).trans hfull
  · rw [(m.tryExecute_refines_evaluate whole ()).2.1 (by cbv), hwhole]
  · exact
      (m.tryExecute_refines_evaluate whole ()).2.2.2 ⟨_, hwhole⟩ _ trivial

end Refinement

end ArithMachine
