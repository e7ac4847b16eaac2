import ArithMachine.Instruction
import ArithMachine.Outcome
import ArithMachine.Value.Arithmetic

/-!
# Evaluation of instruction lists

The meaning of a decoded program, without offsets and events: a recursion over
its instructions that carries the values on the stack, top first, and how many
there may be.  Instructions behind a return have no effect, and a list without
one has no answer.
-/

namespace ArithMachine

section Evaluation

/-- The answer of a list of instructions that starts on the given values. -/
def evaluateFrom (limit : Nat) : List Value → List Instruction → Answer
  | _, [] => .error .missingReturn
  | values, .ret :: _ => .ok values.head?
  | values, .immediate value :: is =>
      if values.length < limit then
        evaluateFrom limit (value :: values) is
      else
        .error (.stackOverflow limit)
  | value :: below, .negate :: is => evaluateFrom limit (value.negate :: below) is
  | [], .negate :: _ => .error (.stackUnderflow .negate)
  | right :: left :: below, .binary .add :: is =>
      evaluateFrom limit (left.add right :: below) is
  | right :: left :: below, .binary .subtract :: is =>
      evaluateFrom limit (left.subtract right :: below) is
  | right :: left :: below, .binary .multiply :: is =>
      evaluateFrom limit (left.multiply right :: below) is
  | right :: left :: below, .binary .divide :: is =>
      evaluateFrom limit (left.divide right :: below) is
  | _, .binary op :: _ => .error (.stackUnderflow (.binary op))

/-- The answer of a list of instructions that starts on an empty stack. -/
def evaluate (limit : Nat) (instructions : List Instruction) : Answer :=
  evaluateFrom limit [] instructions

end Evaluation

end ArithMachine
