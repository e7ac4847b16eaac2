import ArithMachine.Hex
import ArithMachine.Opcode

/-!
# Faults

A fault is a cause for which decoding or running a program stops without an
answer.  `Fault.message` words it.
-/

namespace ArithMachine

section FaultCauses

/-- Why a program has no answer. -/
inductive Fault where
  /-- The byte at this offset stands where a tag is due and is none. -/
  | unknownOpcode (byte : UInt8) (offset : Nat)
  /-- Fewer bytes are left from this offset on than a read needs. -/
  | unexpectedEnd (offset : Nat)
  /-- The program ended and no return was met. -/
  | missingReturn
  /-- The operation found too few values on the stack. -/
  | stackUnderflow (op : Opcode)
  /-- A value was pushed onto a stack that already held as many as this. -/
  | stackOverflow (limit : Nat)
deriving DecidableEq, Repr

/-- The wording of a fault. -/
def Fault.message : Fault → String
  | unknownOpcode byte offset =>
      "unknown opcode 0x" ++ String.ofList (Hex.byte byte) ++ " at offset " ++ toString offset
  | unexpectedEnd offset => "bytecode ended unexpectedly at offset " ++ toString offset
  | missingReturn => "bytecode ended without a return"
  | stackUnderflow op => "stack underflow in " ++ op.name
  | stackOverflow limit => "stack overflow: limit is " ++ toString limit ++ " values"

/-- The same fault with `n` more bytes before the ones in which it arose. -/
def Fault.shift (n : Nat) : Fault → Fault
  | unknownOpcode byte offset => unknownOpcode byte (n + offset)
  | unexpectedEnd offset => unexpectedEnd (n + offset)
  | fault => fault

end FaultCauses

end ArithMachine
