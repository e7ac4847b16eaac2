import ArithMachine.Fault
import ArithMachine.Instruction

/-!
# Operand stacks

A stack holds values up to a limit.  An offer of a value beyond the limit is a
fault, and a pop of an empty stack answers nothing.  Both hand the stack back
beside the answer, as they leave it.  An operation that cannot go on after such
an answer makes use of `push` and `pop?` instead, which have a stack only where
the value was taken in or handed out.

The operations of a program take their operands off the stack and put their
result back.  The operand that was pushed last is the right one.
-/

namespace ArithMachine

section OperandStack

/-- A stack of values with the top first, and how many it may hold. -/
@[ext] structure Stack where
  limit : Nat
  values : List Value
deriving DecidableEq, Repr

/-- The result of a binary operation. -/
def BinaryOp.apply : BinaryOp → Value → Value → Value
  | .add => Value.add
  | .subtract => Value.subtract
  | .multiply => Value.multiply
  | .divide => Value.divide

namespace Stack

def empty (limit : Nat) : Stack :=
  ⟨limit, []⟩

/-- How many values the stack holds. -/
def height (s : Stack) : Nat :=
  s.values.length

/-- The answer to a value that is offered, and the stack as the offer leaves it. -/
def offer (s : Stack) (value : Value) : Except Fault Unit × Stack :=
  if s.limit ≤ s.values.length then
    (.error (.stackOverflow s.limit), s)
  else
    (.ok (), { s with values := value :: s.values })

/-- The top, if there is one, and the stack as it is without it. -/
def pop (s : Stack) : Option Value × Stack :=
  match s.values with
  | [] => (none, s)
  | value :: below => (some value, { s with values := below })

/-- The stack with a value on top of it, unless it is full. -/
def push (s : Stack) (value : Value) : Except Fault Stack :=
  match s.offer value with
  | (.ok (), taller) => .ok taller
  | (.error fault, _) => .error fault

/-- The top and the stack below it. -/
def pop? (s : Stack) : Option (Value × Stack) :=
  match s.pop with
  | (some value, below) => some (value, below)
  | (none, _) => none

/-- The top value, if there is one. -/
def top? (s : Stack) : Option Value :=
  s.values.head?

/-- A pop on behalf of an operation, which cannot do without the value. -/
def popFor (s : Stack) (op : Opcode) : Except Fault (Value × Stack) :=
  match s.pop? with
  | none => .error (.stackUnderflow op)
  | some found => .ok found

/-- Replaces the top by its negation. -/
def negate (s : Stack) : Except Fault Stack := do
  let (value, below) ← s.popFor .negate
  below.push value.negate

/-- Replaces the two values at the top, of which the upper one is the right operand. -/
def combine (s : Stack) (op : BinaryOp) : Except Fault Stack := do
  let (right, below) ← s.popFor (.binary op)
  let (left, below) ← below.popFor (.binary op)
  below.push (op.apply left right)

theorem push_eq (s : Stack) (value : Value) :
    s.push value =
      if s.limit ≤ s.values.length then
        .error (.stackOverflow s.limit)
      else
        .ok { s with values := value :: s.values } := by
  by_cases hfull : s.limit ≤ s.values.length <;> simp [push, offer, hfull]

@[simp] theorem pop?_nil (limit : Nat) : (Stack.mk limit []).pop? = none :=
  rfl

@[simp] theorem pop?_cons (limit : Nat) (value : Value) (below : List Value) :
    (Stack.mk limit (value :: below)).pop? = some (value, ⟨limit, below⟩) :=
  rfl

end Stack

end OperandStack

end ArithMachine
