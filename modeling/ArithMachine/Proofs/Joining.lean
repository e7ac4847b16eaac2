import ArithMachine.Proofs.Defects

/-!
# Decoding joined and cut byte strings

Bytes that can be decoded end where an instruction ends.  What stands behind them
is therefore decoded as it would be alone: its instructions come behind the ones
before, and its fault is moved by the length of the bytes before.  A byte that is
no tag remains the fault of the decoding, whatever follows it.

A place in a byte string is a boundary, or it lies within the operand of an
immediate instruction.  Cut at a boundary, bytes that can be decoded yield the
instructions before it.  Cut within an operand they yield these as well, and the
fault that names the offset just behind the tag.
-/

namespace ArithMachine

section Joining

namespace Defect

variable {offset : Nat} {rest : List UInt8} {fault : Fault}

/-- The same defect with `n` more bytes before it. -/
theorem shift
    (h : Defect offset rest fault) (n : Nat) :
    Defect (n + offset) rest (fault.shift n) := by
  cases h with
  | unknown rest htag => exact .unknown rest htag
  | truncated hshort => exact .truncated hshort

/-- Bytes at the end do not mend a byte that is no tag. -/
theorem append_of_unknown
    {byte : UInt8} {offset' : Nat}
    (h : Defect offset rest (.unknownOpcode byte offset'))
    (more : List UInt8) :
    Defect offset (rest ++ more) (.unknownOpcode byte offset') := by
  cases h with
  | unknown rest htag => exact .unknown (rest ++ more) htag

end Defect

/-- Behind bytes that can be decoded, decoding goes on as if it started there. -/
theorem decode_append_of_decode
    {a : List UInt8} {xs : List Instruction}
    (h : decode a = .ok xs) (b : List UInt8) :
    decode (a ++ b) =
      match decode b with
      | .ok ys => .ok (xs ++ ys)
      | .error fault => .error (fault.shift a.length) := by
  obtain rfl := encode_of_decode h
  cases hb : decode b with
  | ok ys =>
      obtain rfl := encode_of_decode hb
      rw [← encode_append]
      exact decode_encode (xs ++ ys)
  | error fault =>
      obtain ⟨is, rest, rfl, hdefect⟩ := decode_eq_error_iff.mp hb
      refine decode_eq_error_iff.mpr ⟨xs ++ is, rest, ?_, ?_⟩
      · rw [encode_append, List.append_assoc]
      · rw [encode_append, List.length_append]
        exact hdefect.shift _

theorem decode_append_of_unknown
    {a : List UInt8} {byte : UInt8} {offset : Nat}
    (h : decode a = .error (.unknownOpcode byte offset))
    (b : List UInt8) :
    decode (a ++ b) = .error (.unknownOpcode byte offset) := by
  obtain ⟨is, rest, rfl, hdefect⟩ := decode_eq_error_iff.mp h
  refine decode_eq_error_iff.mpr ⟨is, rest ++ b, ?_, ?_⟩
  · exact List.append_assoc _ _ _
  · exact hdefect.append_of_unknown b

section Cuts

variable {is : List Instruction} {k n : Nat}

/-- No more instructions start within a wire form than it has. -/
theorem lt_length_of_boundary_lt
    (h : boundary (encode is) k < (encode is).length) :
    k < is.length := by
  rw [← boundary_length is] at h
  exact (strictMono_boundary _).lt_iff_lt.mp h

theorem le_length_of_boundary_le
    (h : boundary (encode is) k ≤ (encode is).length) :
    k ≤ is.length := by
  rw [← boundary_length is] at h
  exact (strictMono_boundary _).le_iff_le.mp h

theorem boundary_encode_take
    (hk : k ≤ is.length) :
    boundary (encode is) k = (encode (is.take k)).length := by
  have hboundary := boundary_encode_append (is.take k) (encode (is.drop k))
  rwa [← encode_append, List.take_append_drop,
    List.length_take_of_le hk] at hboundary

theorem boundary_cons
    (i : Instruction)
    (hk : k ≤ is.length) :
    boundary (encode (i :: is)) (k + 1) =
      i.encodedLength + boundary (encode is) k := by
  rw [boundary_encode_take hk, boundary_encode_take (Nat.succ_le_succ hk),
    List.take_succ_cons, encode_cons, List.length_append,
    Instruction.length_encode]

/-- Up to a boundary there is the wire form of the instructions before it. -/
theorem take_boundary
    (hk : k ≤ is.length) :
    (encode is).take (boundary (encode is) k) = encode (is.take k) := by
  have hprefix : encode (is.take k) <+: encode is :=
    ⟨encode (is.drop k), by rw [← encode_append, List.take_append_drop]⟩
  rw [boundary_encode_take hk]
  exact (List.prefix_iff_eq_take.mp hprefix).symm

/-- A cut within an operand leaves the tag and fewer than four bytes behind it. -/
theorem exists_take_of_inOperand
    (hn : n ≤ (encode is).length)
    (h : InOperand (encode is) n) :
    ∃ (k : Nat) (value : Value) (rest : List UInt8),
      is[k]? = some (.immediate value) ∧
      boundary (encode is) k < n ∧
      n ≤ boundary (encode is) k + 4 ∧
      (encode is).take n =
        encode (is.take k) ++ Opcode.immediate.toByte :: rest ∧
      rest.length < 4 := by
  obtain ⟨k, htag, hafter, hwithin⟩ := h
  have hk : k < is.length :=
    lt_length_of_boundary_lt (Nat.lt_of_lt_of_le hafter hn)
  have hfound := getElem?_boundary (List.getElem?_eq_getElem hk)
  rw [htag] at hfound
  obtain ⟨value, hvalue⟩ :=
    Instruction.exists_immediate_of_tag (Option.some.inj hfound).symm
  have hget : is[k]? = some (.immediate value) := by
    rw [List.getElem?_eq_getElem hk, hvalue]
  have hstart := boundary_encode_take (Nat.le_of_lt hk)
  have hcut :
      n - (encode (is.take k)).length =
        n - boundary (encode is) k - 1 + 1 := by
    omega
  refine ⟨k, value,
    (value.encode ++ encode (is.drop (k + 1))).take
      (n - boundary (encode is) k - 1),
    hget, hafter, hwithin, ?_, ?_⟩
  · conv_lhs => rw [encode_of_getElem? hget]
    rw [List.take_append, List.take_of_length_le (by omega), hcut]
    rfl
  · rw [List.length_take]
    omega

end Cuts

/--
Decoding respects the joining and the cutting of byte strings.

Behind bytes that can be decoded comes what the second part yields: its
instructions, or its fault with the offset moved by the length of the first part.
A first part with a byte that is no tag has its fault whatever follows.

Bytes that can be decoded, cut at a boundary, yield the instructions before it.
Cut anywhere else, they are cut within the operand of an immediate instruction:
decoding finds the instructions before that one, and misses the operand at the
offset just behind its tag.
-/
theorem decode_joined_and_cut :
    (∀ (a b : List UInt8) (xs : List Instruction),
      decode a = .ok xs →
      decode (a ++ b) =
        match decode b with
        | .ok ys => .ok (xs ++ ys)
        | .error fault => .error (fault.shift a.length)) ∧
    (∀ (a b : List UInt8) (byte : UInt8) (offset : Nat),
      decode a = .error (.unknownOpcode byte offset) →
      decode (a ++ b) = .error (.unknownOpcode byte offset)) ∧
    (∀ (a : List UInt8) (xs : List Instruction) (n : Nat),
      decode a = .ok xs → n ≤ a.length →
      let cut := a.take n
      (∀ k, boundary a k = n → decode cut = .ok (xs.take k)) ∧
      ((∀ k, boundary a k ≠ n) →
        ∃ (k : Nat) (value : Value),
          xs[k]? = some (.immediate value) ∧
          boundary a k < n ∧ n ≤ boundary a k + 4 ∧
          (Decoding.ofBytes cut).instructions = xs.take k ∧
          decode cut = .error (.unexpectedEnd (boundary a k + 1)))) := by
  refine ⟨?_, ?_, ?_⟩
  · intro a b xs h
    exact decode_append_of_decode h b
  · intro a b byte offset h
    exact decode_append_of_unknown h b
  · intro a xs n h hn cut
    obtain rfl := encode_of_decode h
    refine ⟨?_, ?_⟩
    · rintro k rfl
      have hk := le_length_of_boundary_le hn
      have hcut : cut = encode (xs.take k) := take_boundary hk
      rw [hcut]
      exact decode_encode (xs.take k)
    · intro hne
      have hinside : InOperand (encode xs) n := by
        rcases boundary_or_inOperand (encode xs) n with ⟨k, hk⟩ | hinside
        · exact absurd hk (hne k)
        · exact hinside
      obtain ⟨k, value, rest, hget, hafter, hwithin, hcut, hshort⟩ :=
        exists_take_of_inOperand hn hinside
      have hk : k < xs.length :=
        lt_length_of_boundary_lt (Nat.lt_of_lt_of_le hafter hn)
      have hdefect :
          Defect (encode (xs.take k)).length
            (Opcode.immediate.toByte :: rest)
            (.unexpectedEnd (boundary (encode xs) k + 1)) := by
        rw [boundary_encode_take (Nat.le_of_lt hk)]
        exact .truncated hshort
      have hfound := hdefect.ofBytes
      rw [← hcut] at hfound
      refine ⟨k, value, hget, hafter, hwithin, ?_, ?_⟩
      · rw [hfound]
      · rw [decode, hfound, Decoding.result]

/-- A five and its negation: with junk behind them, and cut within the five. -/
theorem decode_joined_and_cut_negation :
    let five : Instruction := .immediate ⟨0x40a00000⟩
    let bytes : List UInt8 := [2, 0, 0, 160, 64, 3]
    decode (bytes ++ [1, 9]) = .error (.unknownOpcode 9 7) ∧
      decode ([1, 9] ++ bytes) = .error (.unknownOpcode 9 1) ∧
      decode (bytes.take 5) = .ok [five] ∧
      decode (bytes.take 3) = .error (.unexpectedEnd 1) := by
  intro five bytes
  obtain ⟨hjoin, hunknown, hcut⟩ := decode_joined_and_cut
  have hbytes : decode bytes = .ok [five, .negate] := by cbv
  have hjunk : decode [1, 9] = .error (.unknownOpcode 9 1) := by cbv
  have hbehind (k : Nat) : 5 ≤ boundary bytes (k + 1) :=
    (strictMono_boundary bytes).monotone (Nat.le_add_left 1 k)
  refine ⟨?_, hunknown _ bytes 9 1 hjunk, ?_, ?_⟩
  · rw [hjoin bytes [1, 9] _ hbytes, hjunk]
    rfl
  · exact (hcut bytes _ 5 hbytes (by decide)).1 1 rfl
  · have hne (k : Nat) : boundary bytes k ≠ 3 := by
      rcases k with _ | k
      · decide
      · have hlate := hbehind k
        omega
    obtain ⟨k, value, hget, hafter, _, _, hfault⟩ :=
      (hcut bytes _ 3 hbytes (by decide)).2 hne
    rcases k with _ | k
    · exact hfault
    · have hlate := hbehind k
      omega

end Joining

end ArithMachine
