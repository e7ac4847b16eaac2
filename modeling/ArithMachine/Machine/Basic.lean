import ArithMachine.Cursor
import ArithMachine.Observer
import ArithMachine.Stack

/-!
# The machine

A machine runs a byte string straight from the wire: it reads one tag, acts on
it, and goes on behind it, without decoding the bytes as a whole first.  It has
a limit for its stack and an observer to which it reports.

`Machine.step` is one turn of the loop and `Machine.run` the loop itself, which
ends because every turn that goes on has read at least one byte.  Each run
starts with an empty stack at the first byte, so that a machine carries nothing
but the observer's log from one call to the next.
-/

namespace ArithMachine

section Running

/-- What can be set on a machine. -/
structure Config where
  /-- How many values its stack may hold. -/
  maxStack : Nat := 0xffffffffffffffff
deriving DecidableEq, Repr

/-- A configuration and an observer. -/
structure Machine (σ : Type) where
  config : Config
  observer : Observer σ

/-- Where a run stands: what is left to read, and the stack. -/
@[ext] structure State where
  cursor : Cursor
  stack : Stack
deriving DecidableEq, Repr

/-- The state in which a run starts. -/
def State.initial (config : Config) (bytes : List UInt8) : State :=
  ⟨.ofBytes bytes, .empty config.maxStack⟩

/-- How a turn of the loop ends: the run goes on, or it has its answer. -/
inductive Step where
  | next (state : State)
  | halt (answer : Answer)
deriving Repr

/-- An operation on the stack lets the run go on behind a cursor, or ends it with a fault. -/
def Step.ofStack (cursor : Cursor) : Except Fault Stack → Step
  | .ok stack => .next ⟨cursor, stack⟩
  | .error fault => .halt (.error fault)

namespace Machine

variable {σ : Type}

/--
One turn of the loop.

The tag is reported before it is looked up, and an immediate value after its
operand was read and before it is pushed.
-/
def step (m : Machine σ) (s : State) (log : σ) : σ × Step :=
  match s.cursor.readByte with
  | (.error fault, _) => (log, .halt (.error fault))
  | (.ok byte, next) =>
      let offset := s.cursor.position
      let log := m.observer.notify log (.opcode offset byte)
      match Opcode.ofByte? byte with
      | none => (log, .halt (.error (.unknownOpcode byte offset)))
      | some .ret => (log, .halt (.ok s.stack.top?))
      | some .immediate =>
          match next.readOperand with
          | (.error fault, _) => (log, .halt (.error fault))
          | (.ok operand, behind) =>
              let value := Value.ofOperand operand
              let log := m.observer.notify log (.immediate offset value operand)
              (log, .ofStack behind (s.stack.push value))
      | some .negate => (log, .ofStack next s.stack.negate)
      | some (.binary op) => (log, .ofStack next (s.stack.combine op))

/-- A turn after which the run goes on has read something. -/
theorem step_shortens {m : Machine σ} {s t : State} {log : σ}
    (h : (m.step s log).2 = .next t) :
    t.cursor.rest.length < s.cursor.rest.length := by
  have hstack (c : Cursor) (r : Except Fault Stack) (hr : Step.ofStack c r = .next t) :
      t.cursor = c := by
    cases r <;> simp_all [Step.ofStack]
    exact hr ▸ rfl
  unfold step at h
  split at h
  · simp at h
  · rename_i byte next hbyte
    obtain ⟨hrest, _⟩ := Cursor.readByte_eq_ok_iff.mp hbyte
    dsimp only at h
    split at h
    · simp at h
    · simp at h
    · split at h
      · simp at h
      · rename_i operand behind hoperand
        obtain ⟨hnext, _⟩ := Cursor.readOperand_eq_ok_iff.mp hoperand
        rw [hstack _ _ h, hrest, hnext, List.length_cons, List.length_append]
        omega
    · rw [hstack _ _ h, hrest]
      simp
    · rw [hstack _ _ h, hrest]
      simp

/-- The loop: bytes that end before a return was met have no answer. -/
def run (m : Machine σ) (s : State) (log : σ) : σ × Answer :=
  if s.cursor.isEmpty then
    (log, .error .missingReturn)
  else
    match _hstep : m.step s log with
    | (log, .halt answer) => (log, answer)
    | (log, .next t) => run m t log
termination_by s.cursor.rest.length
decreasing_by exact step_shortens (by rw [_hstep])

/-- A run takes one turn, and the rest of the run if the turn does not end it. -/
theorem run_eq (m : Machine σ) (s : State) (log : σ) :
    m.run s log =
      if s.cursor.isEmpty then
        (log, .error .missingReturn)
      else
        match m.step s log with
        | (log, .halt answer) => (log, answer)
        | (log, .next t) => m.run t log := by
  rw [run]
  split
  · rfl
  · split <;> rename_i hstep <;> simp [hstep]

/-- Runs a byte string to its answer. -/
def tryExecute (m : Machine σ) (bytes : List UInt8) (log : σ) : σ × Answer :=
  m.run (.initial m.config bytes) log

/-- Runs a byte string to its outcome, which is the last event to be reported. -/
def execute (m : Machine σ) (bytes : List UInt8) (log : σ) : σ × Outcome :=
  let (log, answer) := m.tryExecute bytes log
  let outcome := Outcome.ofAnswer answer
  (m.observer.notify log (.finish outcome), outcome)

/-- The text that shows how a machine is configured. -/
def debugText (m : Machine σ) : String :=
  "VirtualMachine \x7b config: VmConfig \x7b max_stack_size: " ++
    toString m.config.maxStack ++ " \x7d, .. \x7d"

end Machine

end Running

end ArithMachine
