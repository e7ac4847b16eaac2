import ArithMachine.Cursor

/-!
# Cursors with an index

An indexed cursor keeps the byte string as a whole and counts in a word of 64
bits the bytes that were read.  It reads what a `Cursor` reads, but by means that
may fail it: a sum that 64 bits do not hold has no result, and neither has a part
of a byte string whose ends are out of order or lie beyond its end.  A read that
runs into one of these answers `none`, which is not a fault of the bytes.
-/

namespace ArithMachine

section IndexedReading

/-- The sum of two words, if 64 bits hold it. -/
def wordSum? (a b : UInt64) : Option UInt64 :=
  if a.toNat + b.toNat < Nat.pow 2 64 then
    some (a + b)
  else
    none

/-- The bytes from one offset up to another, if these are in order and within the bytes. -/
def slice? (bytes : List UInt8) (start stop : Nat) : Option (List UInt8) :=
  if start ≤ stop ∧ stop ≤ bytes.length then
    some ((bytes.drop start).take (stop - start))
  else
    none

/-- A byte string, and the index of the next byte to be read. -/
structure IndexedCursor where
  bytes : List UInt8
  index : UInt64
deriving DecidableEq, Repr

namespace IndexedCursor

/-- The place at an offset of a byte string. -/
def ofOffset (bytes : List UInt8) (offset : Nat) : IndexedCursor :=
  ⟨bytes, .ofNat offset⟩

def isEmpty (c : IndexedCursor) : Bool :=
  decide (c.bytes.length ≤ c.index.toNat)

/-- The next byte. -/
def readByte (c : IndexedCursor) : Option (Except Fault UInt8 × IndexedCursor) :=
  match c.bytes[c.index.toNat]? with
  | none => some (.error (.unexpectedEnd c.index.toNat), c)
  | some byte =>
      match wordSum? c.index 1 with
      | none => none
      | some next => some (.ok byte, ⟨c.bytes, next⟩)

/-- The next four bytes.  The index behind them is known before they are looked at. -/
def readOperand (c : IndexedCursor) :
    Option (Except Fault Operand × IndexedCursor) :=
  match wordSum? c.index 4 with
  | none => none
  | some stop =>
      if c.bytes.length < stop.toNat then
        some (.error (.unexpectedEnd c.index.toNat), c)
      else
        match slice? c.bytes c.index.toNat stop.toNat with
        | some [b0, b1, b2, b3] =>
            some (.ok ⟨b0, b1, b2, b3⟩, ⟨c.bytes, stop⟩)
        | _ => none

/-- The value of the next four bytes. -/
def readValue (c : IndexedCursor) :
    Option (Except Fault Value × IndexedCursor) :=
  c.readOperand.map fun (answer, next) => (answer.map Value.ofOperand, next)

/-- A read with its answer, and the cursor as the read leaves it. -/
def perform (c : IndexedCursor) :
    Cursor.Read → Option (Except Fault Cursor.Delivery × IndexedCursor)
  | .byte => c.readByte.map fun (answer, next) => (answer.map .byte, next)
  | .operand => c.readOperand.map fun (answer, next) => (answer.map .operand, next)
  | .value => c.readValue.map fun (answer, next) => (answer.map .value, next)

/-- Reads one after the other, unless one of them has no answer. -/
def history (c : IndexedCursor) :
    List Cursor.Read →
      Option (List (Except Fault Cursor.Delivery) × IndexedCursor)
  | [] => some ([], c)
  | read :: reads =>
      match c.perform read with
      | none => none
      | some (answer, next) =>
          match next.history reads with
          | none => none
          | some (answers, last) => some (answer :: answers, last)

end IndexedCursor

end IndexedReading

end ArithMachine
