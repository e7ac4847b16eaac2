import ArithMachine.Fault
import ArithMachine.Value.Order
import ArithMachine.Value.Text

/-!
# Outcomes

An answer is either a fault or the value that a return found on the stack, if
it found one.  An outcome is the short form of an answer: a status, and a value
only when nothing went wrong.
-/

namespace ArithMachine

section Outcomes

/-- What running a program yields; no value means a return on an empty stack. -/
abbrev Answer :=
  Except Fault (Option Value)

/-- How a run ended. -/
inductive Status where
  | ok
  /-- For programs that were refused before any run; no run ends with it. -/
  | compileError
  | runtimeError
  | notImplemented
deriving DecidableEq, Repr

def Status.name : Status → String
  | ok => "Ok"
  | compileError => "CompileError"
  | runtimeError => "RuntimeError"
  | notImplemented => "NotImplemented"

/-- A byte that is no tag is reported as not implemented, every other fault as an error of the run. -/
def Status.ofFault : Fault → Status
  | .unknownOpcode _ _ => notImplemented
  | _ => runtimeError

/-- A status and a value that may be missing. -/
structure Outcome where
  status : Status
  value? : Option Value
deriving DecidableEq, Repr

namespace Outcome

def ofFault (fault : Fault) : Outcome :=
  ⟨.ofFault fault, none⟩

def ofAnswer : Answer → Outcome
  | .ok value? => ⟨.ok, value?⟩
  | .error fault => ofFault fault

/-- Equality in which values compare as numbers. -/
def numEq (a b : Outcome) : Bool :=
  decide (a.status = b.status) &&
    match a.value?, b.value? with
    | none, none => true
    | some x, some y => x.numEq y
    | _, _ => false

end Outcome

end Outcomes

end ArithMachine
