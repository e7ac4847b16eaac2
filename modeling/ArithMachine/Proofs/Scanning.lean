import ArithMachine.Machine.Scan
import ArithMachine.Proofs.Boundaries
import ArithMachine.Proofs.Transcripts

/-!
# Runs without values

How a run ends is decided by the tags it meets and by how many values the stack
holds.  `Scans` states this as rules on an offset and a height, for the bytes as
they stand; `scan` is the function that follows the rules.

Each instruction that is carried out is one application of a rule, and the place
where the run ends is one of the rules without a premise.  Hence a run has the
end that the scan finds, and its status is known from it.

The rules look at bytes at boundaries only.  Therefore byte strings of one length
that agree outside the operands of immediates end alike.
-/

namespace ArithMachine

section Scanning

/--
The end of a run from an offset on, where the stack holds `height` values: a
fault, or whether the return finds a value.
-/
inductive Scans (limit : Nat) (bytes : List UInt8) :
    Nat → Nat → Except Fault Bool → Prop
  | done
      {offset height : Nat}
      (hend : offset = bytes.length) :
      Scans limit bytes offset height (.error .missingReturn)
  | unknown
      {offset height : Nat} {byte : UInt8}
      (hbyte : bytes[offset]? = some byte)
      (htag : ¬ (1 ≤ byte.toNat ∧ byte.toNat ≤ 7)) :
      Scans limit bytes offset height (.error (.unknownOpcode byte offset))
  | ret
      {offset height : Nat}
      (htag : bytes[offset]? = some 1) :
      Scans limit bytes offset height (.ok (decide (0 < height)))
  | truncated
      {offset height : Nat}
      (htag : bytes[offset]? = some 2)
      (hshort : bytes.length < offset + 5) :
      Scans limit bytes offset height (.error (.unexpectedEnd (offset + 1)))
  | overflow
      {offset height : Nat}
      (htag : bytes[offset]? = some 2)
      (hlong : offset + 5 ≤ bytes.length)
      (hfull : limit ≤ height) :
      Scans limit bytes offset height (.error (.stackOverflow limit))
  | immediate
      {offset height : Nat} {r : Except Fault Bool}
      (htag : bytes[offset]? = some 2)
      (hlong : offset + 5 ≤ bytes.length)
      (hroom : height < limit)
      (hnext : Scans limit bytes (offset + 5) (height + 1) r) :
      Scans limit bytes offset height r
  | negateUnderflow
      {offset : Nat}
      (htag : bytes[offset]? = some 3) :
      Scans limit bytes offset 0 (.error (.stackUnderflow .negate))
  | negate
      {offset height : Nat} {r : Except Fault Bool}
      (htag : bytes[offset]? = some 3)
      (hheight : 0 < height)
      (hnext : Scans limit bytes (offset + 1) height r) :
      Scans limit bytes offset height r
  | binaryUnderflow
      {offset height : Nat} {op : BinaryOp}
      (htag : bytes[offset]? = some op.toByte)
      (hheight : height < 2) :
      Scans limit bytes offset height
        (.error (.stackUnderflow (.binary op)))
  | binary
      {offset height : Nat} {op : BinaryOp} {r : Except Fault Bool}
      (htag : bytes[offset]? = some op.toByte)
      (hheight : 2 ≤ height)
      (hnext : Scans limit bytes (offset + 1) (height - 1) r) :
      Scans limit bytes offset height r

section Function

variable {limit offset height : Nat} {byte : UInt8} {rest : List UInt8}

theorem scanFrom_unknown
    (htag : Opcode.ofByte? byte = none) :
    scanFrom limit offset height (byte :: rest) =
      .error (.unknownOpcode byte offset) := by
  unfold scanFrom
  rw [htag]

theorem scanFrom_truncated
    (hshort : rest.length < 4) :
    scanFrom limit offset height (2 :: rest) =
      .error (.unexpectedEnd (offset + 1)) := by
  match rest with
  | [] | [_] | [_, _] | [_, _, _] => rfl
  | _ :: _ :: _ :: _ :: _ =>
      simp only [List.length_cons] at hshort
      omega

theorem scanFrom_immediate
    (hlong : 4 ≤ rest.length) :
    scanFrom limit offset height (2 :: rest) =
      if limit ≤ height then .error (.stackOverflow limit)
      else scanFrom limit (offset + 5) (height + 1) (rest.drop 4) := by
  match rest with
  | [] | [_] | [_, _] | [_, _, _] => simp at hlong
  | _ :: _ :: _ :: _ :: _ => rfl

theorem scanFrom_binary
    (op : BinaryOp) :
    scanFrom limit offset height (op.toByte :: rest) =
      if height < 2 then .error (.stackUnderflow (.binary op))
      else scanFrom limit (offset + 1) (height - 1) rest := by
  cases op with
  | add | subtract | multiply | divide => rfl

end Function

/-- The rules leave no choice: they find what the function computes. -/
theorem Scans.scanFrom_eq
    {limit : Nat} {bytes : List UInt8} {offset height : Nat}
    {r : Except Fault Bool}
    (h : Scans limit bytes offset height r) :
    scanFrom limit offset height (bytes.drop offset) = r := by
  induction h with
  | done hend =>
      rw [hend, List.drop_length]
      rfl
  | unknown hbyte htag =>
      rw [drop_of_getElem? hbyte]
      exact scanFrom_unknown (Opcode.ofByte?_eq_none_iff.mpr htag)
  | ret htag =>
      rw [drop_of_getElem? htag]
      rfl
  | @truncated offset _ htag hshort =>
      rw [drop_of_getElem? htag]
      refine scanFrom_truncated ?_
      rw [List.length_drop]
      omega
  | @overflow offset _ htag hlong hfull =>
      have hoperand : 4 ≤ (bytes.drop (offset + 1)).length := by
        rw [List.length_drop]
        omega
      rw [drop_of_getElem? htag, scanFrom_immediate hoperand, if_pos hfull]
  | @immediate offset _ _ htag hlong hroom _ ih =>
      have hoperand : 4 ≤ (bytes.drop (offset + 1)).length := by
        rw [List.length_drop]
        omega
      rw [drop_of_getElem? htag, scanFrom_immediate hoperand,
        if_neg (Nat.not_le_of_lt hroom), List.drop_drop, ih]
  | negateUnderflow htag =>
      rw [drop_of_getElem? htag]
      rfl
  | negate htag hheight _ ih =>
      rw [drop_of_getElem? htag, ← ih]
      exact if_neg (Nat.ne_of_gt hheight)
  | binaryUnderflow htag hheight =>
      rw [drop_of_getElem? htag, scanFrom_binary, if_pos hheight]
  | binary htag hheight _ ih =>
      rw [drop_of_getElem? htag, scanFrom_binary,
        if_neg (Nat.not_lt_of_le hheight), ih]

/-- An answer without its value: the fault, or whether there is a value. -/
def Answer.shape (answer : Answer) : Except Fault Bool :=
  answer.map Option.isSome

section Simulation

variable {bytes : List UInt8}

/-- An instruction that lets the run go on is one application of a rule. -/
theorem Scans.of_performs
    {limit offset : Nat} {values values' : List Value}
    {i : Instruction} {rest : List UInt8} {r : Except Fault Bool}
    (hdrop : bytes.drop offset = i.encode ++ rest)
    (hperforms : Performs limit values i values')
    (h : Scans limit bytes (offset + i.encodedLength) values'.length r) :
    Scans limit bytes offset values.length r := by
  obtain ⟨htag, hlong, _⟩ := getElem?_of_drop_eq_encode hdrop
  cases hperforms with
  | immediate hroom => exact .immediate htag hlong hroom h
  | negate => exact .negate htag (Nat.zero_lt_succ _) h
  | binary => exact .binary htag (Nat.le_add_left 2 _) h

/-- A run ends by one of the rules without premise. -/
theorem Scans.of_ends
    {s : State} {last : List Event} {answer : Answer}
    (hdrop : bytes.drop s.cursor.position = s.cursor.rest)
    (hposition : s.cursor.position ≤ bytes.length)
    (h : Ends s last answer) :
    Scans s.stack.limit bytes s.cursor.position s.stack.height
      answer.shape := by
  cases h with
  | done hrest =>
      rw [hrest, List.drop_eq_nil_iff] at hdrop
      exact .done (Nat.le_antisymm hposition hdrop)
  | unknown hrest htag =>
      obtain ⟨hbyte, _⟩ := getElem?_of_drop_eq_cons (hdrop.trans hrest)
      exact .unknown hbyte (Opcode.ofByte?_eq_none_iff.mp htag)
  | truncated hrest hshort =>
      obtain ⟨hbyte, hlength⟩ :=
        getElem?_of_drop_eq_cons (hdrop.trans hrest)
      refine .truncated hbyte ?_
      omega
  | stop hrest hstops =>
      obtain ⟨htag, hlong, _⟩ :=
        getElem?_of_drop_eq_encode (hdrop.trans hrest)
      rcases s with ⟨cursor, ⟨limit, values⟩⟩
      cases hstops with
      | ret =>
          have hshape :
              Answer.shape (.ok values.head?) =
                .ok (decide (0 < values.length)) := by
            cases values with
            | nil => rfl
            | cons value below => rfl
          rw [hshape]
          exact .ret htag
      | overflow hfull => exact .overflow htag hlong hfull
      | negate => exact .negateUnderflow htag
      | binary hshort => exact .binaryUnderflow htag hshort

/-- Rules lead back over instructions that were performed. -/
theorem Scans.of_performAll
    {s t : Stack} {is : List Instruction}
    {offset : Nat} {rest : List UInt8} {r : Except Fault Bool}
    (hfits : s.Fits)
    (hdrop : bytes.drop offset = encode is ++ rest)
    (hperformed : performAll s is = .ok t)
    (h : Scans s.limit bytes (offset + (encode is).length) t.height r) :
    Scans s.limit bytes offset s.height r := by
  induction is generalizing s offset with
  | nil =>
      cases hperformed
      exact h
  | cons i is ih =>
      obtain ⟨u, hperform, hbehind⟩ :=
        performAll_cons_eq_ok_iff.mp hperformed
      obtain ⟨hlimit, hperforms⟩ :=
        (Instruction.perform_eq_ok_iff hfits).mp hperform
      obtain ⟨_, huFits⟩ := Instruction.fits_of_perform hfits hperform
      rw [encode_cons, List.append_assoc] at hdrop
      obtain ⟨_, _, hnext⟩ := getElem?_of_drop_eq_encode hdrop
      refine Scans.of_performs hdrop hperforms ?_
      rw [← hlimit] at h ⊢
      refine ih huFits hnext hbehind ?_
      rwa [encode_cons, List.length_append, Instruction.length_encode,
        ← Nat.add_assoc] at h

/-- A run has the end that the rules find. -/
theorem Scans.of_course
    {config : Config} {is : List Instruction} {t : State}
    {last : List Event} {answer : Answer}
    (h : Course (.initial config bytes) is t last answer) :
    Scans config.maxStack bytes 0 0 answer.shape := by
  have hfits := Stack.fits_empty config.maxStack
  have hread : bytes = encode is ++ t.cursor.rest := h.read
  obtain ⟨hposition, hdrop, hwithin⟩ := h.cursor_of_initial
  obtain ⟨hlimit, _⟩ := fits_of_performAll hfits h.performed
  refine Scans.of_performAll hfits hread h.performed ?_
  rw [Nat.zero_add, ← hposition, ← hlimit]
  exact Scans.of_ends hdrop hwithin h.ends

end Simulation

/-- Two byte strings of one length that differ in the operands of immediates at most. -/
structure AgreeOutsideOperands (bytes bytes' : List UInt8) : Prop where
  length_eq : bytes'.length = bytes.length
  getElem?_eq :
    ∀ offset, ¬ InOperand bytes offset → bytes'[offset]? = bytes[offset]?

/-- From a boundary on the rules look at boundaries only. -/
theorem Scans.of_agree
    {limit : Nat} {bytes bytes' : List UInt8}
    {offset height : Nat} {r : Except Fault Bool}
    (hagree : AgreeOutsideOperands bytes bytes')
    (hstart : ∃ k, boundary bytes k = offset)
    (h : Scans limit bytes offset height r) :
    Scans limit bytes' offset height r := by
  have hsame
      {offset : Nat} {byte? : Option UInt8}
      (hstart : ∃ k, boundary bytes k = offset)
      (hbyte : bytes[offset]? = byte?) :
      bytes'[offset]? = byte? := by
    obtain ⟨k, rfl⟩ := hstart
    exact (hagree.getElem?_eq _ (not_inOperand_boundary bytes k)).trans hbyte
  have hnext
      {offset : Nat} (op : Opcode)
      (hstart : ∃ k, boundary bytes k = offset)
      (htag : bytes[offset]? = some op.toByte) :
      ∃ k, boundary bytes k = offset + 1 + op.operandLength := by
    obtain ⟨k, rfl⟩ := hstart
    exact ⟨k + 1, boundary_succ_of_tag op htag⟩
  have hlength := hagree.length_eq
  induction h with
  | done hend => exact .done (hend.trans hlength.symm)
  | unknown hbyte htag => exact .unknown (hsame hstart hbyte) htag
  | ret htag => exact .ret (hsame hstart htag)
  | truncated htag hshort =>
      exact .truncated (hsame hstart htag) (hlength ▸ hshort)
  | overflow htag hlong hfull =>
      exact .overflow (hsame hstart htag) (hlength ▸ hlong) hfull
  | immediate htag hlong hroom _ ih =>
      exact .immediate (hsame hstart htag) (hlength ▸ hlong) hroom
        (ih (hnext .immediate hstart htag))
  | negateUnderflow htag => exact .negateUnderflow (hsame hstart htag)
  | negate htag hheight _ ih =>
      exact .negate (hsame hstart htag) hheight
        (ih (hnext .negate hstart htag))
  | binaryUnderflow htag hheight =>
      exact .binaryUnderflow (hsame hstart htag) hheight
  | @binary _ _ op _ htag hheight _ ih =>
      exact .binary (hsame hstart htag) hheight
        (ih (hnext (.binary op) hstart htag))

namespace Outcome

/-- The status of an outcome is known from the shape of the answer. -/
theorem status_ofAnswer
    (answer : Answer) :
    (ofAnswer answer).status =
      match answer.shape with
      | .ok _ => .ok
      | .error (.unknownOpcode _ _) => .notImplemented
      | .error _ => .runtimeError := by
  rcases answer with fault | value?
  · cases fault with
    | unknownOpcode | unexpectedEnd | missingReturn | stackUnderflow
    | stackOverflow => rfl
  · rfl

/-- An outcome has a value if and only if the answer has one. -/
theorem isSome_value?_ofAnswer
    (answer : Answer) :
    (ofAnswer answer).value?.isSome = decide (answer.shape = .ok true) := by
  rcases answer with fault | _ | value
  · rfl
  · rfl
  · rfl

end Outcome

namespace Machine

variable {σ : Type}

/-- The end of a run is what the scan finds. -/
theorem shape_tryExecute
    (m : Machine σ) (bytes : List UInt8) (log : σ) :
    Scans m.config.maxStack bytes 0 0 (m.tryExecute bytes log).2.shape ∧
      scan m.config.maxStack bytes = (m.tryExecute bytes log).2.shape := by
  obtain ⟨is, t, last, answer, hcourse⟩ :=
    exists_course_initial m.config bytes
  have hanswer : (m.tryExecute bytes log).2 = answer := by
    rw [tryExecute, hcourse.run]
  have hscans := Scans.of_course hcourse
  rw [hanswer]
  exact ⟨hscans, hscans.scanFrom_eq⟩

/--
The outcome of a run is decided by the tags and the height of the stack.

The rules of the scan have exactly one result, which is that of the scanning
function.  A run ends with the very fault that the scan finds, or with an answer
that has a value exactly if the scan says so; the status of the outcome follows
from this, is never that of a refused program, and comes with a value only where
the scan has found one.  Runs over byte strings of one length that differ in the
operands of immediates only end alike.
-/
theorem outcome_decided_by_scan
    (m : Machine σ) (bytes : List UInt8) (log : σ) :
    let found := scan m.config.maxStack bytes
    let answer := (m.tryExecute bytes log).2
    let outcome := (m.execute bytes log).2
    (∀ r : Except Fault Bool,
      Scans m.config.maxStack bytes 0 0 r ↔ r = found) ∧
    answer.map Option.isSome = found ∧
    outcome.status =
      (match found with
      | .ok _ => .ok
      | .error (.unknownOpcode _ _) => .notImplemented
      | .error _ => .runtimeError) ∧
    outcome.status ≠ .compileError ∧
    (outcome.value?.isSome = true ↔ found = .ok true) ∧
    ∀ (bytes' : List UInt8) (log' : σ),
      AgreeOutsideOperands bytes bytes' →
      let answer' := (m.tryExecute bytes' log').2
      let outcome' := (m.execute bytes' log').2
      answer'.map Option.isSome = answer.map Option.isSome ∧
      outcome'.status = outcome.status ∧
      outcome'.value?.isSome = outcome.value?.isSome := by
  intro found answer outcome
  obtain ⟨hscans, hfound⟩ := m.shape_tryExecute bytes log
  have hstatus : outcome.status = _ := Outcome.status_ofAnswer answer
  have hvalue : outcome.value?.isSome = _ :=
    Outcome.isSome_value?_ofAnswer answer
  rw [← hfound] at hstatus hvalue
  refine ⟨?_, hfound.symm, hstatus, ?_, ?_, ?_⟩
  · intro r
    constructor
    · intro h
      exact h.scanFrom_eq.symm
    · rintro rfl
      rwa [← hfound] at hscans
  · rw [hstatus]
    split <;> exact Status.noConfusion
  · rw [hvalue, decide_eq_true_iff]
  · rintro bytes' log' hagree answer' outcome'
    have hscans' := hscans.of_agree hagree ⟨0, rfl⟩
    have hfound' := (m.shape_tryExecute bytes' log').2
    have hshape : answer'.shape = answer.shape :=
      hfound'.symm.trans hscans'.scanFrom_eq
    have hstatus' : outcome'.status = _ := Outcome.status_ofAnswer answer'
    have hvalue' : outcome'.value?.isSome = _ :=
      Outcome.isSome_value?_ofAnswer answer'
    rw [hshape, ← hfound] at hstatus' hvalue'
    exact ⟨hshape, hstatus'.trans hstatus.symm, hvalue'.trans hvalue.symm⟩

/-- A quotient of one by zero, and of a NaN by a number: each is found to return a value. -/
theorem outcome_decided_by_scan_quotient :
    let m : Machine Unit := ⟨⟨2⟩, .silent⟩
    let bytes : List UInt8 := [2, 0, 0, 128, 63, 2, 0, 0, 0, 0, 7, 1]
    let bytes' : List UInt8 := [2, 0, 0, 192, 127, 2, 7, 1, 9, 2, 7, 1]
    AgreeOutsideOperands bytes bytes' ∧
      scan 2 bytes = .ok true ∧
      (m.tryExecute bytes' ()).2.map Option.isSome = .ok true ∧
      (m.execute bytes' ()).2.status = .ok ∧
      (m.execute bytes' ()).2.value?.isSome = true := by
  intro m bytes bytes'
  have hfirst {offset : Nat} (h : 0 < offset ∧ offset ≤ 4) :
      InOperand bytes offset := ⟨0, rfl, h⟩
  have hsecond {offset : Nat} (h : 5 < offset ∧ offset ≤ 9) :
      InOperand bytes offset := ⟨1, rfl, h⟩
  have hagree : AgreeOutsideOperands bytes bytes' := by
    refine ⟨rfl, ?_⟩
    intro offset hout
    match offset with
    | 0 | 5 | 10 | 11 => rfl
    | 1 | 2 | 3 | 4 => exact absurd (hfirst (by decide)) hout
    | 6 | 7 | 8 | 9 => exact absurd (hsecond (by decide)) hout
    | _ + 12 => rfl
  have hscan : scan 2 bytes = .ok true := by decide
  obtain ⟨_, hanswer, hstatus, _, hvalue, hsame⟩ :=
    outcome_decided_by_scan m bytes ()
  obtain ⟨hanswer', hstatus', hvalue'⟩ := hsame bytes' () hagree
  refine ⟨hagree, hscan, ?_, ?_, ?_⟩
  · rw [hanswer', hanswer]
    exact hscan
  · rw [hstatus', hstatus]
    rfl
  · rw [hvalue']
    exact hvalue.mpr hscan

end Machine

end Scanning

end ArithMachine
