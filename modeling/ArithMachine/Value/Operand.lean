import ArithMachine.Value.Basic

/-!
# Operands

On the wire a value is four bytes, the least significant first.  `Operand` is
such a group of bytes.  Reading and writing are inverse to one another for
every word, NaNs included, so that nothing about a value is lost in transport.
-/

namespace ArithMachine

section WireOperand

/-- Four bytes of the wire, in the order in which they are sent. -/
@[ext] structure Operand where
  b0 : UInt8
  b1 : UInt8
  b2 : UInt8
  b3 : UInt8
deriving DecidableEq, Repr

/-- The bytes in wire order. -/
def Operand.toList (o : Operand) : List UInt8 :=
  [o.b0, o.b1, o.b2, o.b3]

@[simp] theorem Operand.length_toList (o : Operand) : o.toList.length = 4 :=
  rfl

/-- The value whose word has these bytes, the least significant first. -/
def Value.ofOperand (o : Operand) : Value :=
  ⟨UInt32.ofNat
    (o.b0.toNat + 0x100 * o.b1.toNat + 0x10000 * o.b2.toNat + 0x1000000 * o.b3.toNat)⟩

/-- The bytes of the word of a value. -/
def Value.toOperand (v : Value) : Operand where
  b0 := UInt8.ofNat v.bits.toNat
  b1 := UInt8.ofNat (v.bits.toNat / 0x100)
  b2 := UInt8.ofNat (v.bits.toNat / 0x10000)
  b3 := UInt8.ofNat (v.bits.toNat / 0x1000000)

/-- The wire bytes of a value. -/
def Value.encode (v : Value) : List UInt8 :=
  v.toOperand.toList

@[simp] theorem Value.ofOperand_toOperand (v : Value) :
    Value.ofOperand v.toOperand = v := by
  have hv : v.bits.toNat < 2 ^ 32 := v.bits.toNat_lt
  apply Value.ext
  apply UInt32.toNat_inj.mp
  simp only [Value.ofOperand, Value.toOperand, UInt8.toNat_ofNat', UInt32.toNat_ofNat']
  omega

@[simp] theorem Value.toOperand_ofOperand (o : Operand) :
    (Value.ofOperand o).toOperand = o := by
  have h0 : o.b0.toNat < 2 ^ 8 := o.b0.toNat_lt
  have h1 : o.b1.toNat < 2 ^ 8 := o.b1.toNat_lt
  have h2 : o.b2.toNat < 2 ^ 8 := o.b2.toNat_lt
  have h3 : o.b3.toNat < 2 ^ 8 := o.b3.toNat_lt
  apply Operand.ext <;> apply UInt8.toNat_inj.mp <;>
    simp only [Value.ofOperand, Value.toOperand, UInt8.toNat_ofNat', UInt32.toNat_ofNat'] <;>
    omega

end WireOperand

end ArithMachine
