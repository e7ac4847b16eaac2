import ArithMachine.Machine.Basic

/-!
# Sessions

A session is a sequence of calls on one machine.  The log of the observer runs
through all of them.
-/

namespace ArithMachine

section Sessions

/-- A request to run a byte string, for its outcome or for its answer. -/
inductive Call where
  | execute (bytes : List UInt8)
  | tryExecute (bytes : List UInt8)
deriving DecidableEq, Repr

/-- What a call gives back. -/
inductive Reply where
  | outcome (outcome : Outcome)
  | answer (answer : Answer)

namespace Machine

variable {σ : Type}

/-- One call. -/
def call (m : Machine σ) (log : σ) : Call → σ × Reply
  | .execute bytes =>
      let (log, outcome) := m.execute bytes log
      (log, .outcome outcome)
  | .tryExecute bytes =>
      let (log, answer) := m.tryExecute bytes log
      (log, .answer answer)

/-- The calls one after the other: the log after the last one, and all replies. -/
def session (m : Machine σ) (log : σ) : List Call → σ × List Reply
  | [] => (log, [])
  | request :: requests =>
      let (log, reply) := m.call log request
      let (log, replies) := m.session log requests
      (log, reply :: replies)

end Machine

end Sessions

end ArithMachine
