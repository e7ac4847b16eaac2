import ArithMachine.Fault

/-!
# Scanning for the outcome

How a run ends can be told from the tags and from how high the stack stands,
without any value: no operation depends on its operands for whether it
succeeds.  `scan` tells it.
-/

namespace ArithMachine

section Scanning

/--
The end of a run over the bytes from an offset on, where the stack holds
`height` values: the fault, or whether the return finds a value.
-/
def scanFrom (limit offset height : Nat) : List UInt8 → Except Fault Bool
  | [] => .error .missingReturn
  | byte :: rest =>
      match Opcode.ofByte? byte with
      | none => .error (.unknownOpcode byte offset)
      | some .ret => .ok (decide (0 < height))
      | some .immediate =>
          match rest with
          | _ :: _ :: _ :: _ :: behind =>
              if limit ≤ height then
                .error (.stackOverflow limit)
              else
                scanFrom limit (offset + 5) (height + 1) behind
          | _ => .error (.unexpectedEnd (offset + 1))
      | some .negate =>
          if height = 0 then
            .error (.stackUnderflow .negate)
          else
            scanFrom limit (offset + 1) height rest
      | some (.binary op) =>
          if height < 2 then
            .error (.stackUnderflow (.binary op))
          else
            scanFrom limit (offset + 1) (height - 1) rest

/-- The end of a run over a byte string. -/
def scan (limit : Nat) (bytes : List UInt8) : Except Fault Bool :=
  scanFrom limit 0 0 bytes

end Scanning

end ArithMachine
