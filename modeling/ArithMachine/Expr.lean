import ArithMachine.Instruction
import ArithMachine.Value.Arithmetic

/-!
# Expressions

An expression is a tree of values, negations and binary operations.  Its
program in operand order, left operand, right operand, operation, leaves the
value of the expression on the stack.  `Expr.need` is how much of the stack
that takes: the left operand is done first and its value stays on the stack
while the right one is worked out.
-/

namespace ArithMachine

section Expressions

inductive Expr where
  | value (value : Value)
  | negate (operand : Expr)
  | binary (op : BinaryOp) (left right : Expr)
deriving DecidableEq, Repr

namespace Expr

/-- The value of an expression. -/
def eval : Expr → Value
  | value v => v
  | negate e => e.eval.negate
  | binary .add l r => l.eval.add r.eval
  | binary .subtract l r => l.eval.subtract r.eval
  | binary .multiply l r => l.eval.multiply r.eval
  | binary .divide l r => l.eval.divide r.eval

/-- The instructions that compute an expression, operands first. -/
def compile : Expr → List Instruction
  | value v => [.immediate v]
  | negate e => e.compile ++ [.negate]
  | binary op l r => l.compile ++ r.compile ++ [.binary op]

/-- How many values the stack holds at most while the expression is computed. -/
def need : Expr → Nat
  | value _ => 1
  | negate e => e.need
  | binary _ l r => max l.need (1 + r.need)

theorem need_pos (e : Expr) : 0 < e.need := by
  induction e with
  | value v => exact Nat.zero_lt_one
  | negate e ih => exact ih
  | binary op l r ihl ihr => exact Nat.lt_of_lt_of_le ihl (Nat.le_max_left _ _)

end Expr

end Expressions

end ArithMachine
