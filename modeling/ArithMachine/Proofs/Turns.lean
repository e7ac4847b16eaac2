import ArithMachine.Machine.Progress
import ArithMachine.Proofs.Performing
import ArithMachine.Proofs.WireFormat

/-!
# Turns of the loop

This module describes the loop of the machine turn by turn.

A turn reads the instruction at the cursor and performs it on the stack; where
no instruction can be read, the fault of the reading is the answer.  The machine
reads tag and operand on its own, so that this is a statement about two ways of
reading: `Machine.step_eq`.

From it we derive what any number of turns does.  The states that a run reaches
are exactly those behind a list of instructions that was read off the bytes,
performed on the stack, and reported: `Machine.advance_eq_some_iff`.
-/

namespace ArithMachine

section Turns

/-- What a turn reports when it reads the instruction at an offset. -/
def Instruction.events (offset : Nat) (i : Instruction) : List Event :=
  .opcode offset i.opcode.toByte ::
    match i with
    | immediate value => [.immediate offset value value.toOperand]
    | _ => []

/-- What a turn reports where no instruction can be read: the byte in place of a tag. -/
def Cursor.glance (c : Cursor) : List Event :=
  (c.rest.take 1).map (.opcode c.position)

/-- What turns report that read instructions one after the other. -/
def eventsFrom : Nat → List Instruction → List Event
  | _, [] => []
  | offset, i :: is =>
      i.events offset ++ eventsFrom (offset + i.encodedLength) is

theorem eventsFrom_append
    (offset : Nat) (is js : List Instruction) :
    eventsFrom offset (is ++ js) =
      eventsFrom offset is ++
        eventsFrom (offset + (encode is).length) js := by
  induction is generalizing offset with
  | nil => rfl
  | cons i is ih =>
      rw [List.cons_append, eventsFrom, ih, eventsFrom, List.append_assoc,
        encode_cons, List.length_append, Instruction.length_encode,
        Nat.add_assoc]

/-- A performed instruction lets the run go on behind a cursor, or ends it. -/
def Step.ofPerformed (behind : Cursor) : Except Answer Stack → Step
  | .ok stack => .next ⟨behind, stack⟩
  | .error answer => .halt answer

theorem Step.ofStack_eq (behind : Cursor) (r : Except Fault Stack) :
    Step.ofStack behind r = Step.ofPerformed behind (r.mapError .error) := by
  cases r <;> rfl

namespace Machine

variable {σ : Type}

/-- The log after a list of events. -/
def report (m : Machine σ) (log : σ) (events : List Event) : σ :=
  events.foldl m.observer.notify log

/-- A turn reads an instruction and performs it. -/
theorem step_eq (m : Machine σ) (s : State) (log : σ) :
    m.step s log =
      match s.cursor.readInstruction with
      | .ok (i, behind) =>
          (m.report log (i.events s.cursor.position),
            .ofPerformed behind (i.perform s.stack))
      | .error fault =>
          (m.report log s.cursor.glance, .halt (.error fault)) := by
  obtain ⟨⟨position, rest⟩, stack⟩ := s
  cases front rest with
  | done => rfl
  | @unknown byte rest htag =>
      rw [Cursor.readInstruction_unknown htag]
      simp [step, Cursor.readByte, htag, report, Cursor.glance]
  | @truncated rest hshort =>
      have hoperand :
          (Cursor.mk (position + 1) rest).readOperand =
            (.error (.unexpectedEnd (position + 1)), ⟨position + 1, rest⟩) :=
        Cursor.readOperand_eq_error_iff.mpr ⟨hshort, rfl, rfl⟩
      rw [Cursor.readInstruction_truncated hshort]
      simp [step, Cursor.readByte, hoperand, report, Cursor.glance]
  | instruction i rest =>
      have hbyte :
          (Cursor.mk position (i.encode ++ rest)).readByte =
            (.ok i.opcode.toByte,
              ⟨position + 1, i.operandBytes ++ rest⟩) := rfl
      rw [Cursor.readInstruction_encode]
      cases i with
      | immediate value =>
          have hoperand :
              (Cursor.mk (position + 1) (value.encode ++ rest)).readOperand =
                (.ok value.toOperand, ⟨position + 5, rest⟩) :=
            Cursor.readOperand_eq_ok_iff.mpr ⟨rfl, rfl⟩
          simp only [Instruction.operandBytes] at hbyte
          simp [step, hbyte, hoperand, report, Instruction.events,
            Instruction.opcode, Instruction.perform, Step.ofStack_eq,
            Instruction.encodedLength, Opcode.operandLength]
      | ret | negate | binary op =>
          simp [step, hbyte, report, Instruction.events,
            Instruction.opcode, Instruction.operandBytes,
            Instruction.perform, Step.ofStack_eq, Step.ofPerformed,
            Instruction.encodedLength, Opcode.operandLength]

section Loop

variable {m : Machine σ} {s t : State} {log log' : σ}
variable {i : Instruction} {behind : Cursor}

theorem step_instruction
    (hread : s.cursor.readInstruction = .ok (i, behind)) :
    m.step s log =
      (m.report log (i.events s.cursor.position),
        .ofPerformed behind (i.perform s.stack)) := by
  rw [step_eq, hread]

theorem run_done
    (hrest : s.cursor.rest = []) :
    m.run s log = (log, .error .missingReturn) := by
  have hempty : s.cursor.isEmpty = true := by
    simp [Cursor.isEmpty, hrest]
  rw [run_eq, if_pos hempty]

theorem run_fault
    {fault : Fault}
    (hmore : s.cursor.rest ≠ [])
    (hread : s.cursor.readInstruction = .error fault) :
    m.run s log = (m.report log s.cursor.glance, .error fault) := by
  have hempty : ¬ s.cursor.isEmpty = true := by
    simpa [Cursor.isEmpty] using hmore
  rw [run_eq, if_neg hempty, step_eq, hread]

theorem run_instruction
    (hread : s.cursor.readInstruction = .ok (i, behind)) :
    m.run s log =
      match i.perform s.stack with
      | .ok stack =>
          m.run ⟨behind, stack⟩
            (m.report log (i.events s.cursor.position))
      | .error answer =>
          (m.report log (i.events s.cursor.position), answer) := by
  have hempty : ¬ s.cursor.isEmpty = true := by
    obtain ⟨hrest, _⟩ := Cursor.readInstruction_eq_ok_iff.mp hread
    simp [Cursor.isEmpty, hrest, Instruction.encode]
  rw [run_eq, if_neg hempty, step_instruction hread]
  cases i.perform s.stack with
  | ok stack => rfl
  | error answer => rfl

theorem advance_fault
    {fault : Fault} (turns : Nat)
    (hread : s.cursor.readInstruction = .error fault) :
    m.advance (turns + 1) s log = none := by
  rw [advance, step_eq, hread]

theorem advance_instruction
    (turns : Nat)
    (hread : s.cursor.readInstruction = .ok (i, behind)) :
    m.advance (turns + 1) s log =
      match i.perform s.stack with
      | .ok stack =>
          m.advance turns ⟨behind, stack⟩
            (m.report log (i.events s.cursor.position))
      | .error _ => none := by
  rw [advance, step_instruction hread]
  cases i.perform s.stack with
  | ok stack => rfl
  | error answer => rfl

/-- What a turn has done that lets the run go on. -/
theorem of_step_next
    (h : (m.step s log).2 = .next t) :
    ∃ i, s.cursor.readInstruction = .ok (i, t.cursor) ∧
      i.perform s.stack = .ok t.stack := by
  cases hread : s.cursor.readInstruction with
  | error fault =>
      rw [step_eq, hread] at h
      cases h
  | ok found =>
      obtain ⟨i, behind⟩ := found
      rw [step_instruction hread] at h
      cases hperform : i.perform s.stack with
      | error answer =>
          rw [hperform] at h
          cases h
      | ok stack =>
          rw [hperform] at h
          cases h
          exact ⟨i, rfl, hperform⟩

/-- Why a turn ends the run. -/
theorem of_step_halt
    {answer : Answer}
    (h : (m.step s log).2 = .halt answer) :
    (∃ fault, s.cursor.readInstruction = .error fault ∧
      answer = .error fault) ∨
    ∃ (i : Instruction) (behind : Cursor),
      s.cursor.readInstruction = .ok (i, behind) ∧
      i.perform s.stack = .error answer := by
  cases hread : s.cursor.readInstruction with
  | error fault =>
      rw [step_eq, hread] at h
      cases h
      exact Or.inl ⟨fault, rfl, rfl⟩
  | ok found =>
      obtain ⟨i, behind⟩ := found
      rw [step_instruction hread] at h
      cases hperform : i.perform s.stack with
      | ok stack =>
          rw [hperform] at h
          cases h
      | error answer =>
          rw [hperform] at h
          cases h
          exact Or.inr ⟨i, behind, rfl, hperform⟩

/-- What the first of several turns has done, if all of them let the run go on. -/
theorem of_advance_succ
    {turns : Nat}
    (h : m.advance (turns + 1) s log = some (log', t)) :
    ∃ (i : Instruction) (behind : Cursor) (stack : Stack),
      s.cursor.readInstruction = .ok (i, behind) ∧
      i.perform s.stack = .ok stack ∧
      m.advance turns ⟨behind, stack⟩
        (m.report log (i.events s.cursor.position)) = some (log', t) := by
  cases hread : s.cursor.readInstruction with
  | error fault =>
      rw [advance_fault turns hread] at h
      cases h
  | ok found =>
      rcases found with ⟨i, behind⟩
      rw [advance_instruction turns hread] at h
      cases hperform : i.perform s.stack with
      | error answer =>
          rw [hperform] at h
          cases h
      | ok stack =>
          rw [hperform] at h
          exact ⟨i, behind, stack, rfl, hperform, h⟩

/-- More turns go on from the state that the first ones have reached. -/
theorem advance_add
    {turns : Nat}
    (h : m.advance turns s log = some (log', t)) (more : Nat) :
    m.advance (turns + more) s log = m.advance more t log' := by
  induction turns generalizing s log with
  | zero =>
      cases h
      rw [Nat.zero_add]
  | succ turns ih =>
      rcases of_advance_succ h with
        ⟨i, behind, stack, hread, hperform, hrest⟩
      rw [Nat.add_right_comm, advance_instruction _ hread, hperform]
      exact ih hrest

end Loop

/-- What a list of instructions makes of a state and a log. -/
structure CarriesOut
    (m : Machine σ) (is : List Instruction)
    (s t : State) (log log' : σ) : Prop where
  read : s.cursor.rest = encode is ++ t.cursor.rest
  position :
    t.cursor.position = s.cursor.position + (encode is).length
  performed : performAll s.stack is = .ok t.stack
  reported : log' = m.report log (eventsFrom s.cursor.position is)

/-- The instructions at which a number of turns starts. -/
def executed (m : Machine σ) : Nat → State → σ → List Instruction
  | 0, _, _ => []
  | turns + 1, s, log =>
      match s.cursor.readInstruction, m.step s log with
      | .ok (i, _), (log, .next t) => i :: m.executed turns t log
      | _, _ => []

/-- A turn that lets the run go on is the first to be counted. -/
theorem executed_succ
    {m : Machine σ} {s : State} {log : σ}
    {i : Instruction} {behind : Cursor} {stack : Stack}
    (hread : s.cursor.readInstruction = .ok (i, behind))
    (hperform : i.perform s.stack = .ok stack) (turns : Nat) :
    m.executed (turns + 1) s log =
      i :: m.executed turns ⟨behind, stack⟩
        (m.report log (i.events s.cursor.position)) := by
  simp [executed, hread, step_instruction hread, hperform,
    Step.ofPerformed]

/-- Turns that let the run go on carry out the instructions at which they start. -/
theorem carriesOut_executed
    {m : Machine σ} {turns : Nat} {s t : State} {log log' : σ}
    (h : m.advance turns s log = some (log', t)) :
    (m.executed turns s log).length = turns ∧
      m.CarriesOut (m.executed turns s log) s t log log' := by
  induction turns generalizing s log with
  | zero =>
      cases h
      exact ⟨rfl, rfl, rfl, rfl, rfl⟩
  | succ turns ih =>
      rcases of_advance_succ h with
        ⟨i, behind, stack, hread, hperform, hbehind⟩
      obtain ⟨hlength, hcarries⟩ := ih hbehind
      obtain ⟨hrest, hposition⟩ :=
        Cursor.readInstruction_eq_ok_iff.mp hread
      rw [executed_succ hread hperform]
      refine ⟨by simp [hlength], ?_, ?_, ?_, ?_⟩
      · rw [hrest, hcarries.read, encode_cons, List.append_assoc]
      · rw [hcarries.position, hposition]
        simp [Nat.add_assoc]
      · simp only [performAll, hperform]
        exact hcarries.performed
      · rw [hcarries.reported, hposition]
        simp [report, eventsFrom]

/-- Instructions that can be carried out take as many turns. -/
theorem advance_of_carriesOut
    {m : Machine σ} {is : List Instruction} {s t : State} {log log' : σ}
    (h : m.CarriesOut is s t log log') :
    m.advance is.length s log = some (log', t) := by
  induction is generalizing s log with
  | nil =>
      rcases h with ⟨hread, hposition, hperformed, hreported⟩
      have ht : t = s := by
        apply State.ext
        · exact Cursor.ext hposition hread.symm
        · exact (Except.ok.inj hperformed).symm
      rw [ht, hreported]
      rfl
  | cons i is ih =>
      rcases h with ⟨hread, hposition, hperformed, hreported⟩
      obtain ⟨stack, hperform, hbehind⟩ :=
        performAll_cons_eq_ok_iff.mp hperformed
      have hinstruction := Cursor.readInstruction_of_encode_cons hread
      rw [List.length_cons, advance_instruction _ hinstruction, hperform]
      refine ih ⟨rfl, ?_, hbehind, ?_⟩
      · rw [hposition]
        simp [Nat.add_assoc]
      · rw [hreported]
        simp [report, eventsFrom]

/-- The states that a run reaches, and its logs there. -/
theorem advance_eq_some_iff
    {m : Machine σ} {turns : Nat} {s t : State} {log log' : σ} :
    m.advance turns s log = some (log', t) ↔
      ∃ is, is.length = turns ∧ m.CarriesOut is s t log log' := by
  constructor
  · intro h
    exact ⟨_, carriesOut_executed h⟩
  · rintro ⟨is, rfl, h⟩
    exact advance_of_carriesOut h

/-- A list of instructions that ends the run gives its answer, whatever stands behind it. -/
theorem run_of_performAll_error
    {m : Machine σ} {is : List Instruction} {s : State}
    {rest : List UInt8} {answer : Answer} (log : σ)
    (hrest : s.cursor.rest = encode is ++ rest)
    (h : performAll s.stack is = .error answer) :
    (m.run s log).2 = answer := by
  induction is generalizing s log with
  | nil => cases h
  | cons i is ih =>
      have hinstruction := Cursor.readInstruction_of_encode_cons hrest
      rw [run_instruction hinstruction]
      rcases performAll_cons_eq_error_iff.mp h with
        hperform | ⟨stack, hperform, hbehind⟩
      · rw [hperform]
      · rw [hperform]
        exact ih _ rfl hbehind

/-- A list of instructions that lets the run go on is carried out, and the run goes on behind it. -/
theorem run_of_performAll_ok
    {m : Machine σ} {is : List Instruction} {s : State}
    {rest : List UInt8} {stack : Stack} (log : σ)
    (hrest : s.cursor.rest = encode is ++ rest)
    (h : performAll s.stack is = .ok stack) :
    m.run s log =
      m.run ⟨⟨s.cursor.position + (encode is).length, rest⟩, stack⟩
        (m.report log (eventsFrom s.cursor.position is)) :=
  run_of_advance (advance_of_carriesOut ⟨hrest, rfl, h, rfl⟩)

/-- The limit of the stack does not change, and no state goes beyond it. -/
theorem fits_of_advance
    {m : Machine σ} {turns : Nat} {s t : State} {log log' : σ}
    (hfits : s.stack.Fits)
    (h : m.advance turns s log = some (log', t)) :
    t.stack.limit = s.stack.limit ∧ t.stack.Fits :=
  fits_of_performAll hfits (carriesOut_executed h).2.performed

/-- A state that a run has reached is within the limit of the machine. -/
theorem fits_of_advance_initial
    {m : Machine σ} {bytes : List UInt8} {turns : Nat} {s : State} {log log' : σ}
    (h : m.advance turns (.initial m.config bytes) log = some (log', s)) :
    s.stack.limit = m.config.maxStack ∧ s.stack.Fits :=
  fits_of_advance (Stack.fits_empty m.config.maxStack) h

end Machine

end Turns

end ArithMachine
