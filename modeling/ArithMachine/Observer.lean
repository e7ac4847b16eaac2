import ArithMachine.Hex
import ArithMachine.Outcome
import ArithMachine.Value.Operand

/-!
# Observers

A run reports what it does as a sequence of events.  An observer is any way to
fold events into a log; the log is the observer's alone and the run never reads
it.

Three observers are given: `silent` keeps nothing, `recorder` keeps the events
themselves, and `tracer` keeps each event as a trace record, that is a message
with named texts.
-/

namespace ArithMachine

section Observation

/-- What a run reports. -/
inductive Event where
  /-- A byte was read where a tag is due, whether or not it is one. -/
  | opcode (offset : Nat) (byte : UInt8)
  /-- The operand of the immediate instruction at this offset was read. -/
  | immediate (offset : Nat) (value : Value) (operand : Operand)
  /-- The run ended. -/
  | finish (outcome : Outcome)
deriving DecidableEq, Repr

namespace Event

/-- The same event with `n` more bytes before the ones in which it arose. -/
def shift (n : Nat) : Event → Event
  | opcode offset byte => opcode (n + offset) byte
  | immediate offset value operand => immediate (n + offset) value operand
  | finish outcome => finish outcome

/-- The bytes that were read when the event was reported. -/
def bytes : Event → List UInt8
  | opcode _ byte => [byte]
  | immediate _ _ operand => operand.toList
  | finish _ => []

end Event

/-- A way to fold events into a log. -/
structure Observer (σ : Type) where
  notify : σ → Event → σ

namespace Observer

/-- Keeps nothing. -/
def silent : Observer Unit where
  notify log _ := log

/-- Keeps the events in the order in which they come. -/
def recorder : Observer (Array Event) where
  notify log event := log.push event

end Observer

/-- How much a trace record matters. -/
inductive TraceLevel where
  | trace
  | debug
deriving DecidableEq, Repr

def TraceLevel.name : TraceLevel → String
  | trace => "TRACE"
  | debug => "DEBUG"

/-- A message with named texts. -/
structure TraceRecord where
  level : TraceLevel
  message : String
  fields : List (String × String)
deriving DecidableEq, Repr

namespace TraceRecord

/-- The text of a value that may be missing. -/
def optionalText : Option Value → String
  | none => "None"
  | some value => "Some(Value(" ++ value.text ++ "))"

/-- The record of an event. -/
def ofEvent : Event → TraceRecord
  | .opcode offset byte =>
      ⟨.trace, "decoded opcode",
        [("offset", toString offset), ("opcode", toString byte.toNat)]⟩
  | .immediate offset value operand =>
      ⟨.trace, "immediate value",
        [("offset", toString offset), ("value", value.text),
          ("bytes", String.ofList (Hex.spaced operand.toList))]⟩
  | .finish outcome =>
      ⟨.debug, "execution finished",
        [("status", outcome.status.name), ("value", optionalText outcome.value?)]⟩

end TraceRecord

/-- Keeps the trace records of the events. -/
def Observer.tracer : Observer (Array TraceRecord) where
  notify log event := log.push (.ofEvent event)

end Observation

end ArithMachine
