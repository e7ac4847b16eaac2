/-!
# Hexadecimal text of bytes

A byte is written as two lowercase digits, and a run of bytes as such pairs
with one blank between them.
-/

namespace ArithMachine

namespace Hex

section HexText

/-- Two lowercase hexadecimal digits. -/
def byte (b : UInt8) : List Char :=
  [Nat.digitChar (b.toNat / 16), Nat.digitChar (b.toNat % 16)]

/-- Bytes as pairs of digits, with a blank between each two. -/
def spaced (bytes : List UInt8) : List Char :=
  [' '].intercalate (bytes.map byte)

@[simp] theorem length_byte (b : UInt8) : (byte b).length = 2 :=
  rfl

end HexText

end Hex

end ArithMachine
