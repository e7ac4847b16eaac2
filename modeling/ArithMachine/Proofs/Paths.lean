import ArithMachine.Proofs.Boundaries
import ArithMachine.Proofs.Transcripts

/-!
# The path of a run

What a run reports is known from its bytes: at each boundary, up to the one at
which it ends, it reports the byte that stands there and, where this is the tag
of an immediate with a whole operand behind it, the operand.  `eventsAt` is what
there is to report at an offset, and `EndsAt` lists the ways in which a run ends
there, each with its answer and with what is reported last.

A run to an outcome reports the outcome in addition, as the last event.
-/

namespace ArithMachine

section Paths

/-- The four bytes from an offset on, if there are as many. -/
def operandAt? (bytes : List UInt8) (offset : Nat) : Option Operand :=
  match (bytes.drop offset).take 4 with
  | [b0, b1, b2, b3] => some ⟨b0, b1, b2, b3⟩
  | _ => none

/-- What is reported at an offset: the byte, and its operand if it is an immediate tag with one. -/
def eventsAt (bytes : List UInt8) (offset : Nat) : List Event :=
  match bytes[offset]? with
  | none => []
  | some byte =>
      .opcode offset byte ::
        if byte = 2 then
          (operandAt? bytes (offset + 1)).toList.map fun operand =>
            .immediate offset (.ofOperand operand) operand
        else
          []

/-- How a run ends at an offset: the answer, and what is reported there. -/
inductive EndsAt (limit : Nat) (bytes : List UInt8) (offset : Nat) :
    Answer → List Event → Prop
  | done
      (hend : offset = bytes.length) :
      EndsAt limit bytes offset (.error .missingReturn) []
  | ret
      {value? : Option Value}
      (htag : bytes[offset]? = some 1) :
      EndsAt limit bytes offset (.ok value?) [.opcode offset 1]
  | unknown
      {byte : UInt8}
      (hbyte : bytes[offset]? = some byte)
      (htag : ¬ (1 ≤ byte.toNat ∧ byte.toNat ≤ 7)) :
      EndsAt limit bytes offset
        (.error (.unknownOpcode byte offset)) [.opcode offset byte]
  | truncated
      (htag : bytes[offset]? = some 2)
      (hshort : bytes.length < offset + 5) :
      EndsAt limit bytes offset
        (.error (.unexpectedEnd (offset + 1))) [.opcode offset 2]
  | overflow
      {operand : Operand}
      (htag : bytes[offset]? = some 2)
      (hoperand : operandAt? bytes (offset + 1) = some operand) :
      EndsAt limit bytes offset (.error (.stackOverflow limit))
        [.opcode offset 2,
          .immediate offset (.ofOperand operand) operand]
  | negateUnderflow
      (htag : bytes[offset]? = some 3) :
      EndsAt limit bytes offset
        (.error (.stackUnderflow .negate)) [.opcode offset 3]
  | binaryUnderflow
      {op : BinaryOp}
      (htag : bytes[offset]? = some op.toByte) :
      EndsAt limit bytes offset
        (.error (.stackUnderflow (.binary op))) [.opcode offset op.toByte]

section Bytes

variable {bytes rest : List UInt8} {offset : Nat}

theorem operandAt?_immediate
    {value : Value}
    (h : bytes.drop offset = (Instruction.immediate value).encode ++ rest) :
    operandAt? bytes (offset + 1) = some value.toOperand := by
  rw [operandAt?, ← List.drop_drop, h]
  rfl

theorem operandAt?_of_length_lt
    (h : (bytes.drop offset).length < 4) :
    operandAt? bytes offset = none := by
  rw [operandAt?, List.take_of_length_le (Nat.le_of_lt h)]
  match bytes.drop offset, h with
  | [], _ | [_], _ | [_, _], _ | [_, _, _], _ => rfl
  | _ :: _ :: _ :: _ :: _, h =>
      simp only [List.length_cons] at h
      omega

theorem eventsAt_of_drop_nil
    (h : bytes.drop offset = []) :
    eventsAt bytes offset = [] := by
  rw [eventsAt, ← List.head?_drop, h]
  rfl

theorem eventsAt_of_ne
    {byte : UInt8}
    (h : bytes.drop offset = byte :: rest)
    (hne : byte ≠ 2) :
    eventsAt bytes offset = [.opcode offset byte] := by
  rw [eventsAt, ← List.head?_drop, h, List.head?_cons]
  simp [hne]

theorem eventsAt_truncated
    (h : bytes.drop offset = 2 :: rest)
    (hshort : rest.length < 4) :
    eventsAt bytes offset = [.opcode offset 2] := by
  have hnone : operandAt? bytes (offset + 1) = none := by
    refine operandAt?_of_length_lt ?_
    rwa [← List.drop_drop, h]
  rw [eventsAt, ← List.head?_drop, h, List.head?_cons]
  simp [hnone]

/-- Where an instruction stands, its events are reported. -/
theorem eventsAt_instruction
    {i : Instruction}
    (h : bytes.drop offset = i.encode ++ rest) :
    eventsAt bytes offset = i.events offset := by
  cases i with
  | immediate value =>
      have hsome := operandAt?_immediate h
      rw [eventsAt, ← List.head?_drop, h]
      simp [hsome, Instruction.events, Instruction.encode,
        Instruction.opcode, Opcode.toByte]
  | ret => exact eventsAt_of_ne h (by decide)
  | negate => exact eventsAt_of_ne h (by decide)
  | binary op =>
      refine eventsAt_of_ne h ?_
      cases op with
      | add | subtract | multiply | divide => decide

/-- Nothing at an offset is the end of a run. -/
theorem finish_not_mem_eventsAt
    (bytes : List UInt8) (offset : Nat) (outcome : Outcome) :
    .finish outcome ∉ eventsAt bytes offset := by
  unfold eventsAt
  split
  · exact List.not_mem_nil
  · split <;> simp

/-- What is reported where a run ends is what there is to report. -/
theorem Ends.endsAt
    {s : State} {last : List Event} {answer : Answer}
    (hdrop : bytes.drop s.cursor.position = s.cursor.rest)
    (hposition : s.cursor.position ≤ bytes.length)
    (h : Ends s last answer) :
    eventsAt bytes s.cursor.position = last ∧
      EndsAt s.stack.limit bytes s.cursor.position answer last := by
  cases h with
  | done hrest =>
      rw [hrest] at hdrop
      refine ⟨eventsAt_of_drop_nil hdrop, .done ?_⟩
      exact Nat.le_antisymm hposition (List.drop_eq_nil_iff.mp hdrop)
  | @unknown byte rest hrest htag =>
      rw [hrest] at hdrop
      obtain ⟨hbyte, _⟩ := getElem?_of_drop_eq_cons hdrop
      refine ⟨eventsAt_of_ne hdrop ?_, .unknown hbyte ?_⟩
      · rintro rfl
        cases htag
      · exact Opcode.ofByte?_eq_none_iff.mp htag
  | truncated hrest hshort =>
      rw [hrest] at hdrop
      obtain ⟨hbyte, hlength⟩ := getElem?_of_drop_eq_cons hdrop
      refine ⟨eventsAt_truncated hdrop hshort, .truncated hbyte ?_⟩
      omega
  | stop hrest hstops =>
      rw [hrest] at hdrop
      obtain ⟨htag, _⟩ := getElem?_of_drop_eq_encode hdrop
      refine ⟨eventsAt_instruction hdrop, ?_⟩
      rcases s with ⟨cursor, ⟨limit, values⟩⟩
      cases hstops with
      | ret => exact .ret htag
      | negate => exact .negateUnderflow htag
      | binary => exact .binaryUnderflow htag
      | @overflow value _ _ =>
          have hends :
              EndsAt limit bytes cursor.position
                (.error (.stackOverflow limit))
                [.opcode cursor.position 2,
                  .immediate cursor.position
                    (.ofOperand value.toOperand) value.toOperand] :=
            .overflow htag (operandAt?_immediate hdrop)
          rwa [Value.ofOperand_toOperand] at hends

end Bytes

/-- What instructions report is what there is to report at their boundaries. -/
theorem flatMap_eventsAt_boundary
    (is : List Instruction) (rest : List UInt8) :
    ((List.range is.length).flatMap fun k =>
        eventsAt (encode is ++ rest) (boundary (encode is ++ rest) k)) =
      eventsFrom 0 is := by
  induction is using List.reverseRecOn generalizing rest with
  | nil => rfl
  | append_singleton is i ih =>
      have hdrop :
          (encode is ++ (i.encode ++ rest)).drop (encode is).length =
            i.encode ++ rest := List.drop_left
      rw [encode_concat_append, List.length_append, List.length_singleton,
        List.range_succ, List.flatMap_append, ih, List.flatMap_singleton,
        boundary_encode_append, eventsAt_instruction hdrop,
        eventsFrom_append, Nat.zero_add, eventsFrom, eventsFrom,
        List.append_nil]

namespace Machine

variable {σ : Type}

/--
The log of a run is the path that it takes through its bytes.

The run ends at the boundary of some number, in the turn of that number.  At each
boundary before it stands a tag, which gives the next boundary.  Everything that
is reported, to any observer, is what there is to report at the boundaries up to
that one and including it; the last of these reports is the one that belongs to
the way in which the run ends.  A run to an outcome reports the same and then the
outcome that it hands over, and no other outcome is reported.
-/
theorem run_path
    (m : Machine σ) (bytes : List UInt8) (log : σ) :
    ∃ turns : Nat,
      let last := boundary bytes turns
      let path :=
        (List.range (turns + 1)).flatMap fun k =>
          eventsAt bytes (boundary bytes k)
      let answer := (m.tryExecute bytes log).2
      let outcome := (m.execute bytes log).2
      (∃ (log' : σ) (s : State),
        m.advance turns (.initial m.config bytes) log = some (log', s) ∧
          s.cursor.position = last) ∧
      m.advance (turns + 1) (.initial m.config bytes) log = none ∧
      (∀ k < turns, ∃ op : Opcode,
        bytes[boundary bytes k]? = some op.toByte ∧
          boundary bytes (k + 1) =
            boundary bytes k + 1 + op.operandLength) ∧
      EndsAt m.config.maxStack bytes last answer (eventsAt bytes last) ∧
      (m.tryExecute bytes log).1 = m.report log path ∧
      (m.execute bytes log).1 =
        m.report log (path ++ [.finish outcome]) ∧
      outcome = .ofAnswer answer ∧
      (∀ outcome' : Outcome, .finish outcome' ∉ path) ∧
      transcript m.config bytes = ⟨path, answer⟩ := by
  obtain ⟨is, t, last, answer, hcourse⟩ :=
    exists_course_initial m.config bytes
  obtain ⟨hadvance, hended⟩ := hcourse.advance m log
  obtain ⟨hlimit, _⟩ := fits_of_advance_initial hadvance
  have hread : bytes = encode is ++ t.cursor.rest := hcourse.read
  obtain ⟨hposition, hdrop, hwithin⟩ := hcourse.cursor_of_initial
  have hlast : t.cursor.position = boundary bytes is.length := by
    rw [hposition, hread, boundary_encode_append]
  obtain ⟨hevents, hends⟩ := hcourse.ends.endsAt hdrop hwithin
  rw [hlast] at hevents hends
  have hpath :
      ((List.range (is.length + 1)).flatMap fun k =>
          eventsAt bytes (boundary bytes k)) =
        eventsFrom 0 is ++ last := by
    rw [List.range_succ, List.flatMap_append, List.flatMap_singleton, hevents,
      hread, flatMap_eventsAt_boundary]
  have hrun :
      m.tryExecute bytes log =
        (m.report log (eventsFrom 0 is ++ last), answer) :=
    hcourse.run m log
  have hlog :
      (m.tryExecute bytes log).1 =
        m.report log (eventsFrom 0 is ++ last) := by
    rw [hrun]
  refine ⟨is.length, ⟨_, t, hadvance, hlast⟩, hended, ?_, ?_, ?_, ?_, rfl,
    ?_, ?_⟩
  · intro k hk
    have htag := getElem?_boundary_encode hk t.cursor.rest
    rw [← hread] at htag
    exact ⟨_, htag, boundary_succ_of_tag _ htag⟩
  · rw [hrun, hevents, ← hlimit]
    exact hends
  · rw [hpath, hlog]
  · rw [hpath, report_append, ← hlog]
    rfl
  · intro outcome' hmem
    obtain ⟨k, _, hk⟩ := List.mem_flatMap.mp hmem
    exact finish_not_mem_eventsAt bytes _ outcome' hk
  · rw [hpath, hrun, hcourse.transcript_eq]

/-- A one that is negated, and a five for which there is no room. -/
theorem run_path_overflow :
    let bytes : List UInt8 := [2, 0, 0, 128, 63, 3, 2, 0, 0, 160, 64]
    (∃ op : Opcode,
      bytes[boundary bytes 0]? = some op.toByte ∧
        boundary bytes 1 = 1 + op.operandLength) ∧
      transcript ⟨1⟩ bytes =
        ⟨[.opcode 0 2, .immediate 0 ⟨0x3f800000⟩ ⟨0, 0, 128, 63⟩,
            .opcode 5 3,
            .opcode 6 2, .immediate 6 ⟨0x40a00000⟩ ⟨0, 0, 160, 64⟩],
          .error (.stackOverflow 1)⟩ := by
  intro bytes
  let m : Machine (Array Event) := recording ⟨1⟩
  obtain ⟨turns, ⟨log, s, hs, _⟩, hnone, htags, _, _, _, _, _, htranscript⟩ :=
    run_path m bytes #[]
  have hanswer :
      (m.tryExecute bytes #[]).2 = .error (.stackOverflow 1) := by cbv
  -- The run takes two turns, and the third one ends it.
  rcases turns with _ | _ | _ | turns
  · cases hnone
  · cases hnone
  · obtain ⟨op, htag, hnext⟩ := htags 0 (by decide)
    refine ⟨⟨op, htag, ?_⟩, ?_⟩
    · rw [hnext]
      rfl
    · rw [hanswer] at htranscript
      exact htranscript
  · cases hs

end Machine

end Paths

end ArithMachine
