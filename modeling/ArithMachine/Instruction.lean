import ArithMachine.Opcode
import ArithMachine.Value.Operand
import ArithMachine.Value.Order
import ArithMachine.Value.Text

/-!
# Instructions

An instruction is an opcode, and for the immediate opcode a value.  On the wire
it is its tag followed by the operand bytes of that value, so that instructions
take one byte or five.
-/

namespace ArithMachine

section Instructions

/-- One step of a program. -/
inductive Instruction where
  | ret
  | immediate (value : Value)
  | negate
  | binary (op : BinaryOp)
deriving DecidableEq, Repr

namespace Instruction

def opcode : Instruction → Opcode
  | ret => .ret
  | immediate _ => .immediate
  | negate => .negate
  | binary op => .binary op

/-- The bytes behind the tag. -/
def operandBytes : Instruction → List UInt8
  | immediate value => value.encode
  | _ => []

/-- The wire form: the tag and the bytes behind it. -/
def encode (i : Instruction) : List UInt8 :=
  i.opcode.toByte :: i.operandBytes

/-- The length of the wire form, known from the opcode alone. -/
def encodedLength (i : Instruction) : Nat :=
  1 + i.opcode.operandLength

@[simp] theorem length_encode (i : Instruction) :
    i.encode.length = i.encodedLength := by
  cases i <;> rfl

theorem encodedLength_pos (i : Instruction) : 0 < i.encodedLength := by
  unfold encodedLength
  omega

/-- The name of the instruction, followed by its value if it has one. -/
def characters : Instruction → List Char
  | immediate value => "Immediate ".toList ++ value.characters
  | i => i.opcode.name.toList

def text (i : Instruction) : String :=
  String.ofList i.characters

/-- Equality in which immediates compare as numbers; one that is a NaN is equal to none. -/
def numEq : Instruction → Instruction → Bool
  | immediate a, immediate b => a.numEq b
  | i, j => decide (i = j)

/-- Lists of instructions are equal when they have one length and agree at each place. -/
def listNumEq : List Instruction → List Instruction → Bool
  | [], [] => true
  | i :: is, j :: js => i.numEq j && listNumEq is js
  | _, _ => false

end Instruction

/-- The wire form of a list of instructions, one after the other. -/
def encode (instructions : List Instruction) : List UInt8 :=
  instructions.flatMap Instruction.encode

@[simp] theorem encode_nil : encode [] = [] :=
  rfl

@[simp] theorem encode_cons (i : Instruction) (is : List Instruction) :
    encode (i :: is) = i.encode ++ encode is :=
  rfl

@[simp] theorem encode_append (is js : List Instruction) :
    encode (is ++ js) = encode is ++ encode js := by
  simp [encode]

end Instructions

end ArithMachine
