/-!
# Opcodes

An instruction starts with a tag byte.  Seven tags are in use, `1` to `7`;
`Opcode.ofByte?` refuses every other byte.  Only the immediate opcode is
followed by operand bytes.
-/

namespace ArithMachine

section Tags

/-- The operations that take two operands. -/
inductive BinaryOp where
  | add
  | subtract
  | multiply
  | divide
deriving DecidableEq, Repr

/-- The kinds of instruction. -/
inductive Opcode where
  | ret
  | immediate
  | negate
  | binary (op : BinaryOp)
deriving DecidableEq, Repr

def BinaryOp.toByte : BinaryOp → UInt8
  | .add => 4
  | .subtract => 5
  | .multiply => 6
  | .divide => 7

def BinaryOp.name : BinaryOp → String
  | .add => "Add"
  | .subtract => "Subtract"
  | .multiply => "Multiply"
  | .divide => "Divide"

namespace Opcode

/-- The tag byte. -/
def toByte : Opcode → UInt8
  | ret => 1
  | immediate => 2
  | negate => 3
  | binary op => op.toByte

/-- The opcode of a tag byte. -/
def ofByte? (byte : UInt8) : Option Opcode :=
  match byte.toNat with
  | 1 => some ret
  | 2 => some immediate
  | 3 => some negate
  | 4 => some (binary .add)
  | 5 => some (binary .subtract)
  | 6 => some (binary .multiply)
  | 7 => some (binary .divide)
  | _ => none

def name : Opcode → String
  | ret => "Return"
  | immediate => "Immediate"
  | negate => "Negate"
  | binary op => op.name

/-- How many operand bytes follow the tag. -/
def operandLength : Opcode → Nat
  | immediate => 4
  | _ => 0

@[simp] theorem ofByte?_toByte (op : Opcode) : ofByte? op.toByte = some op := by
  cases op with
  | binary op => cases op <;> rfl
  | _ => rfl

theorem toByte_of_ofByte? {byte : UInt8} {op : Opcode} (h : ofByte? byte = some op) :
    op.toByte = byte := by
  apply UInt8.toNat_inj.mp
  unfold ofByte? at h
  split at h <;> simp_all <;> subst h <;> rfl

/-- The bytes in use as tags are `1` to `7`. -/
theorem ofByte?_isSome_iff (byte : UInt8) :
    (ofByte? byte).isSome = true ↔ 1 ≤ byte.toNat ∧ byte.toNat ≤ 7 := by
  unfold ofByte?
  split <;> simp_all
  omega

end Opcode

end Tags

end ArithMachine
