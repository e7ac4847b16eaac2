import ArithMachine.Fault
import ArithMachine.Value.Operand

/-!
# Cursors

A cursor walks once over a byte string.  It knows the offset it has reached and
the bytes still to be read.

A read either delivers what it was asked for, or fails for want of bytes and
names the offset at which it stood.  In either case it hands back the cursor as
it leaves it: behind the bytes that were delivered, or where it was.
-/

namespace ArithMachine

section Reading

/-- A place in a byte string: how many bytes lie before it, and which follow. -/
@[ext] structure Cursor where
  position : Nat
  rest : List UInt8
deriving DecidableEq, Repr

namespace Cursor

/-- The start of a byte string. -/
def ofBytes (bytes : List UInt8) : Cursor :=
  ⟨0, bytes⟩

def isEmpty (c : Cursor) : Bool :=
  c.rest.isEmpty

/-- The next byte. -/
def readByte (c : Cursor) : Except Fault UInt8 × Cursor :=
  match c.rest with
  | byte :: rest => (.ok byte, ⟨c.position + 1, rest⟩)
  | [] => (.error (.unexpectedEnd c.position), c)

/-- The next four bytes. -/
def readOperand (c : Cursor) : Except Fault Operand × Cursor :=
  match c.rest with
  | b0 :: b1 :: b2 :: b3 :: rest => (.ok ⟨b0, b1, b2, b3⟩, ⟨c.position + 4, rest⟩)
  | _ => (.error (.unexpectedEnd c.position), c)

/-- The value of the next four bytes. -/
def readValue (c : Cursor) : Except Fault Value × Cursor :=
  let (answer, next) := c.readOperand
  (answer.map Value.ofOperand, next)

theorem readByte_eq_ok_iff {c next : Cursor} {byte : UInt8} :
    c.readByte = (.ok byte, next) ↔
      c.rest = byte :: next.rest ∧ next.position = c.position + 1 := by
  unfold readByte
  split <;> simp_all [Cursor.ext_iff]
  grind

theorem readByte_eq_error_iff {c next : Cursor} {fault : Fault} :
    c.readByte = (.error fault, next) ↔
      c.rest = [] ∧ fault = .unexpectedEnd c.position ∧ next = c := by
  unfold readByte
  split <;> simp_all [eq_comm]

theorem readOperand_eq_ok_iff {c next : Cursor} {operand : Operand} :
    c.readOperand = (.ok operand, next) ↔
      c.rest = operand.toList ++ next.rest ∧ next.position = c.position + 4 := by
  unfold readOperand
  split <;> simp_all [Cursor.ext_iff, Operand.ext_iff, Operand.toList]
  grind

theorem readOperand_eq_error_iff {c next : Cursor} {fault : Fault} :
    c.readOperand = (.error fault, next) ↔
      c.rest.length < 4 ∧ fault = .unexpectedEnd c.position ∧ next = c := by
  unfold readOperand
  split
  · rename_i h
    simp only [h, List.length_cons, Prod.mk.injEq, reduceCtorEq, false_and, false_iff, not_and]
    omega
  · rename_i h
    have hshort : c.rest.length < 4 := by
      match hr : c.rest with
      | [] | [_] | [_, _] | [_, _, _] => simp
      | b0 :: b1 :: b2 :: b3 :: rest => exact absurd hr (h b0 b1 b2 b3 rest)
    simp [hshort, eq_comm]

theorem readValue_eq_ok_iff {c next : Cursor} {value : Value} :
    c.readValue = (.ok value, next) ↔
      c.rest = value.encode ++ next.rest ∧ next.position = c.position + 4 := by
  unfold readValue Value.encode
  constructor
  · intro h
    rcases hread : c.readOperand with ⟨fault | operand, after⟩
    · simp [hread, Except.map] at h
    · simp only [hread, Except.map, Prod.mk.injEq, Except.ok.injEq] at h
      obtain ⟨rfl, rfl⟩ := h
      simpa using readOperand_eq_ok_iff.mp hread
  · intro h
    simp [readOperand_eq_ok_iff.mpr h, Except.map]

theorem readValue_eq_error_iff {c next : Cursor} {fault : Fault} :
    c.readValue = (.error fault, next) ↔
      c.rest.length < 4 ∧ fault = .unexpectedEnd c.position ∧ next = c := by
  rw [← readOperand_eq_error_iff]
  unfold readValue
  obtain ⟨answer, after⟩ := c.readOperand
  cases answer <;> simp [Except.map]

/-- The three kinds of read. -/
inductive Read where
  | byte
  | operand
  | value
deriving DecidableEq, Repr

/-- What a read hands over. -/
inductive Delivery where
  | byte (byte : UInt8)
  | operand (operand : Operand)
  | value (value : Value)
deriving DecidableEq, Repr

/-- The bytes that a delivery stands for. -/
def Delivery.bytes : Delivery → List UInt8
  | byte b => [b]
  | operand o => o.toList
  | value v => v.encode

/-- How many bytes a read takes. -/
def Read.width : Read → Nat
  | byte => 1
  | operand => 4
  | value => 4

/-- The kind of read that a delivery answers. -/
def Delivery.read : Delivery → Read
  | byte _ => .byte
  | operand _ => .operand
  | value _ => .value

/-- A read with its answer, and the cursor as the read leaves it. -/
def perform (c : Cursor) : Read → Except Fault Delivery × Cursor
  | .byte =>
      let (answer, next) := c.readByte
      (answer.map .byte, next)
  | .operand =>
      let (answer, next) := c.readOperand
      (answer.map .operand, next)
  | .value =>
      let (answer, next) := c.readValue
      (answer.map .value, next)

/-- Reads one after the other: their answers, and the cursor as the last one leaves it. -/
def history (c : Cursor) : List Read → List (Except Fault Delivery) × Cursor
  | [] => ([], c)
  | read :: reads =>
      let (answer, next) := c.perform read
      let (answers, last) := next.history reads
      (answer :: answers, last)

/-- The bytes that reads have handed over, in order. -/
def delivered (answers : List (Except Fault Delivery)) : List UInt8 :=
  answers.flatMap fun answer =>
    match answer with
    | .ok delivery => delivery.bytes
    | .error _ => []

end Cursor

end Reading

end ArithMachine
