import ArithMachine.Cursor.Indexed
import Mathlib

/-!
# Reading without loss

A read that finds as many bytes as it takes hands them over and moves the cursor
behind them; any other read fails, and leaves the cursor where it is.  What a
sequence of reads has delivered, failed reads among them, is therefore what lies
before the cursor, each byte once and in order.

The indexed cursor reads the same.  A byte string has fewer than 2 ^ 63 bytes, so
that an index within it leaves room for the width of a read: no sum goes beyond
64 bits, and no part is cut out that is not there.
-/

namespace ArithMachine

section Cursors

namespace Cursor

section Single

variable {c : Cursor} {read : Read}

theorem readByte_of_pos_length
    (hlong : 1 ≤ c.rest.length) :
    ∃ byte : UInt8,
      [byte] = c.rest.take 1 ∧
      c.readByte = (.ok byte, ⟨c.position + 1, c.rest.drop 1⟩) := by
  rcases hread : c.readByte with ⟨fault | byte, next⟩
  · obtain ⟨hrest, _⟩ := readByte_eq_error_iff.mp hread
    simp [hrest] at hlong
  · obtain ⟨hrest, hposition⟩ := readByte_eq_ok_iff.mp hread
    rw [hrest]
    exact ⟨byte, rfl, by rw [← hposition]; rfl⟩

theorem readOperand_of_le_length
    (hlong : 4 ≤ c.rest.length) :
    ∃ operand : Operand,
      operand.toList = c.rest.take 4 ∧
      c.readOperand = (.ok operand, ⟨c.position + 4, c.rest.drop 4⟩) := by
  rcases hread : c.readOperand with ⟨fault | operand, next⟩
  · obtain ⟨hshort, _⟩ := readOperand_eq_error_iff.mp hread
    omega
  · obtain ⟨hrest, hposition⟩ := readOperand_eq_ok_iff.mp hread
    rw [hrest]
    exact ⟨operand, rfl, by rw [← hposition]; rfl⟩

/-- A read that takes more bytes than there are fails, and moves nothing. -/
theorem perform_of_length_lt
    (hshort : c.rest.length < read.width) :
    c.perform read = (.error (.unexpectedEnd c.position), c) := by
  cases read with
  | byte =>
      have hrest : c.rest = [] :=
        List.length_eq_zero_iff.mp (Nat.lt_one_iff.mp hshort)
      simp [perform, readByte_eq_error_iff.mpr ⟨hrest, rfl, rfl⟩, Except.map]
  | operand =>
      simp [perform, readOperand_eq_error_iff.mpr ⟨hshort, rfl, rfl⟩, Except.map]
  | value =>
      simp [perform, readValue_eq_error_iff.mpr ⟨hshort, rfl, rfl⟩, Except.map]

/-- Any other read hands over the bytes that it takes, and moves behind them. -/
theorem perform_of_le_length
    (hlong : read.width ≤ c.rest.length) :
    ∃ delivery : Delivery,
      delivery.read = read ∧
      delivery.bytes = c.rest.take read.width ∧
      c.perform read =
        (.ok delivery,
          ⟨c.position + read.width, c.rest.drop read.width⟩) := by
  cases read with
  | byte =>
      obtain ⟨byte, hbytes, hread⟩ := readByte_of_pos_length hlong
      refine ⟨.byte byte, rfl, hbytes, ?_⟩
      simp [perform, hread, Except.map, Read.width]
  | operand =>
      obtain ⟨operand, hbytes, hread⟩ := readOperand_of_le_length hlong
      refine ⟨.operand operand, rfl, hbytes, ?_⟩
      simp [perform, hread, Except.map, Read.width]
  | value =>
      obtain ⟨operand, hbytes, hread⟩ := readOperand_of_le_length hlong
      refine ⟨.value (.ofOperand operand), rfl, ?_, ?_⟩
      · rw [Delivery.bytes, Value.encode, Value.toOperand_ofOperand]
        exact hbytes
      · simp [perform, readValue, hread, Except.map, Read.width]

/-- A read delivers the bytes by which it moves the cursor, whether or not it fails. -/
theorem perform_delivers
    (c : Cursor) (read : Read) :
    c.rest = delivered [(c.perform read).1] ++ (c.perform read).2.rest ∧
      (c.perform read).2.position =
        c.position + (delivered [(c.perform read).1]).length := by
  by_cases hlong : read.width ≤ c.rest.length
  · obtain ⟨delivery, _, hbytes, hread⟩ := perform_of_le_length hlong
    have hdelivered :
        delivered [(c.perform read).1] = c.rest.take read.width := by
      rw [hread, ← hbytes]
      exact List.append_nil _
    rw [hdelivered, hread, List.take_append_drop,
      List.length_take_of_le hlong]
    exact ⟨rfl, rfl⟩
  · rw [perform_of_length_lt (Nat.lt_of_not_le hlong)]
    exact ⟨rfl, rfl⟩

end Single

/-- What a sequence of reads delivers is what lies between the first and the last cursor. -/
theorem history_delivers
    (c : Cursor) (reads : List Read) :
    c.rest = delivered (c.history reads).1 ++ (c.history reads).2.rest ∧
      (c.history reads).2.position =
        c.position + (delivered (c.history reads).1).length := by
  induction reads generalizing c with
  | nil => exact ⟨rfl, rfl⟩
  | cons read reads ih =>
      obtain ⟨hrest, hposition⟩ := perform_delivers c read
      obtain ⟨hrestBehind, hpositionBehind⟩ := ih (c.perform read).2
      have hdelivered :
          delivered (c.history (read :: reads)).1 =
            delivered [(c.perform read).1] ++
              delivered ((c.perform read).2.history reads).1 := by
        simp [history, delivered]
      have hlast :
          (c.history (read :: reads)).2 =
            ((c.perform read).2.history reads).2 := rfl
      rw [hdelivered, hlast]
      refine ⟨?_, ?_⟩
      · rw [List.append_assoc, ← hrestBehind, ← hrest]
      · rw [hpositionBehind, hposition, List.length_append, Nat.add_assoc]

theorem length_history
    (c : Cursor) (reads : List Read) :
    (c.history reads).1.length = reads.length := by
  induction reads generalizing c with
  | nil => rfl
  | cons read reads ih => exact congrArg Nat.succ (ih _)

/-- Reads go on from where the ones before have left the cursor. -/
theorem history_append
    (c : Cursor) (reads more : List Read) :
    c.history (reads ++ more) =
      ((c.history reads).1 ++ ((c.history reads).2.history more).1,
        ((c.history reads).2.history more).2) := by
  induction reads generalizing c with
  | nil => rfl
  | cons read reads ih =>
      rw [List.cons_append, history]
      dsimp only
      rw [ih]
      rfl

/-- Reads from the start of a byte string divide it into what they deliver and what is left. -/
theorem history_ofBytes
    (bytes : List UInt8) (reads : List Read) :
    let c := ((ofBytes bytes).history reads).2
    delivered ((ofBytes bytes).history reads).1 = bytes.take c.position ∧
      c.rest = bytes.drop c.position ∧
      c.position ≤ bytes.length := by
  intro c
  let told := delivered ((ofBytes bytes).history reads).1
  obtain ⟨hbytes, hposition⟩ := history_delivers (ofBytes bytes) reads
  have hsplit : told ++ c.rest = bytes := hbytes.symm
  have hwhere : c.position = told.length :=
    hposition.trans (Nat.zero_add _)
  have hlength := congrArg List.length hsplit
  rw [List.length_append, ← hwhere] at hlength
  refine ⟨?_, ?_, by omega⟩
  · calc
      told = (told ++ c.rest).take told.length := List.take_left.symm
      _ = bytes.take c.position := by rw [hsplit, hwhere]
  · calc
      c.rest = (told ++ c.rest).drop told.length := List.drop_left.symm
      _ = bytes.drop c.position := by rw [hsplit, hwhere]

/-- From any place on, single bytes can be read up to the end. -/
theorem history_replicate_byte
    (c : Cursor) :
    c.history (List.replicate c.rest.length .byte) =
      (c.rest.map fun b => .ok (.byte b),
        ⟨c.position + c.rest.length, []⟩) := by
  obtain ⟨position, rest⟩ := c
  induction rest generalizing position with
  | nil => rfl
  | cons b rest ih =>
      have hread :
          (Cursor.mk position (b :: rest)).perform .byte =
            (.ok (.byte b), ⟨position + 1, rest⟩) := rfl
      have hbehind := ih (position + 1)
      dsimp only at hbehind
      rw [List.length_cons, List.replicate_succ, history, hread]
      dsimp only
      rw [hbehind, Nat.add_assoc, Nat.add_comm 1]
      rfl

end Cursor

namespace IndexedCursor

variable {bytes : List UInt8}

/-- An indexed cursor over the bytes stands at the place of a cursor. -/
structure StandsAt
    (bytes : List UInt8) (c : IndexedCursor) (d : Cursor) : Prop where
  bytes_eq : c.bytes = bytes
  index_eq : c.index.toNat = d.position
  rest_eq : d.rest = bytes.drop d.position
  within : d.position ≤ bytes.length

theorem standsAt_ofBytes (bytes : List UInt8) :
    StandsAt bytes (ofOffset bytes 0) (.ofBytes bytes) :=
  ⟨rfl, rfl, rfl, Nat.zero_le _⟩

theorem StandsAt.isEmpty_eq
    {c : IndexedCursor} {d : Cursor}
    (h : StandsAt bytes c d) :
    c.isEmpty = d.isEmpty := by
  rw [isEmpty, Cursor.isEmpty, h.bytes_eq, h.index_eq, h.rest_eq,
    Bool.eq_iff_iff, decide_eq_true_iff, List.isEmpty_iff,
    List.drop_eq_nil_iff]

/-- Two reads give one answer, a fault or not, and leave their cursors at one place. -/
inductive Agree {α : Type} (bytes : List UInt8) :
    Option (Except Fault α × IndexedCursor) → Except Fault α × Cursor → Prop
  | intro
      {answer : Except Fault α} {next : IndexedCursor} {next' : Cursor}
      (hnext : StandsAt bytes next next') :
      Agree bytes (some (answer, next)) (answer, next')

theorem Agree.map
    {α β : Type} {r : Option (Except Fault α × IndexedCursor)}
    {r' : Except Fault α × Cursor}
    (h : Agree bytes r r') (f : α → β) :
    Agree bytes
      (r.map fun (answer, next) => (answer.map f, next))
      (r'.1.map f, r'.2) := by
  cases h with
  | intro hnext => exact .intro hnext

section Reads

variable {c : IndexedCursor} {d : Cursor}

/-- An index within a byte string leaves room for the width of a read. -/
theorem exists_wordSum?
    (hlength : bytes.length < 2 ^ 63)
    (h : StandsAt bytes c d)
    {width : UInt64} (hwidth : width.toNat ≤ 4) :
    ∃ stop, wordSum? c.index width = some stop ∧
      stop.toNat = d.position + width.toNat := by
  have hwithin := h.within
  have hsum : c.index.toNat + width.toNat < 2 ^ 64 := by
    rw [h.index_eq]
    omega
  refine ⟨c.index + width, if_pos hsum, ?_⟩
  rw [UInt64.toNat_add, Nat.mod_eq_of_lt hsum, h.index_eq]

/-- Counting a byte that was read does not overflow. -/
theorem readByte_agrees
    (hlength : bytes.length < 2 ^ 63)
    (h : StandsAt bytes c d) :
    Agree bytes c.readByte d.readByte := by
  obtain ⟨next, hsum, hnext⟩ :
      ∃ next, wordSum? c.index 1 = some next ∧
        next.toNat = d.position + 1 :=
    exists_wordSum? hlength h (by decide)
  obtain ⟨rfl, hindex, hrest, hwithin⟩ := h
  rw [readByte, hindex, ← List.head?_drop, ← hrest]
  cases hbyte : d.rest with
  | nil =>
      have hfails : d.readByte = (.error (.unexpectedEnd d.position), d) :=
        Cursor.readByte_eq_error_iff.mpr ⟨hbyte, rfl, rfl⟩
      rw [hfails]
      exact .intro ⟨rfl, hindex, hrest, hwithin⟩
  | cons b rest =>
      have hread : d.readByte = (.ok b, ⟨d.position + 1, rest⟩) :=
        Cursor.readByte_eq_ok_iff.mpr ⟨hbyte, rfl⟩
      rw [hread, hsum]
      refine .intro ⟨rfl, hnext, ?_, ?_⟩
      · rw [← List.drop_drop, ← hrest, hbyte]
        rfl
      · have hleft := congrArg List.length hrest
        rw [hbyte, List.length_cons, List.length_drop] at hleft
        dsimp only
        omega

/-- The end of an operand is found without overflow, and the operand is not cut out beyond it. -/
theorem readOperand_agrees
    (hlength : bytes.length < 2 ^ 63)
    (h : StandsAt bytes c d) :
    Agree bytes c.readOperand d.readOperand := by
  obtain ⟨stop, hsum, hstop⟩ :
      ∃ stop, wordSum? c.index 4 = some stop ∧
        stop.toNat = d.position + 4 :=
    exists_wordSum? hlength h (by decide)
  obtain ⟨rfl, hindex, hrest, hwithin⟩ := h
  have hleft : d.rest.length = c.bytes.length - d.position := by
    rw [hrest, List.length_drop]
  rw [readOperand, hsum]
  dsimp only
  rw [hstop, hindex]
  by_cases hshort : c.bytes.length < d.position + 4
  · have hfails :
        d.readOperand = (.error (.unexpectedEnd d.position), d) :=
      Cursor.readOperand_eq_error_iff.mpr ⟨by omega, rfl, rfl⟩
    rw [if_pos hshort, hfails]
    exact .intro ⟨rfl, hindex, hrest, hwithin⟩
  · have hlong : 4 ≤ d.rest.length := by omega
    obtain ⟨operand, hbytes, hread⟩ := Cursor.readOperand_of_le_length hlong
    have hslice :
        slice? c.bytes d.position (d.position + 4) =
          some operand.toList := by
      rw [slice?, if_pos (by omega), Nat.add_sub_cancel_left, hbytes, hrest]
    rw [if_neg hshort, hread, hslice]
    refine .intro ⟨rfl, hstop, ?_, ?_⟩
    · rw [hrest, List.drop_drop]
    · dsimp only
      omega

/-- An indexed cursor answers every read, as the cursor does at the same place. -/
theorem perform_agrees
    (hlength : bytes.length < 2 ^ 63)
    (h : StandsAt bytes c d) (read : Cursor.Read) :
    Agree bytes (c.perform read) (d.perform read) := by
  cases read with
  | byte => exact (readByte_agrees hlength h).map Cursor.Delivery.byte
  | operand =>
      exact (readOperand_agrees hlength h).map Cursor.Delivery.operand
  | value =>
      exact
        ((readOperand_agrees hlength h).map Value.ofOperand).map
          Cursor.Delivery.value

end Reads

/-- Within a byte string a sequence of reads has the answers of the cursor. -/
theorem exists_history
    (hlength : bytes.length < 2 ^ 63)
    {c : IndexedCursor} {d : Cursor}
    (h : StandsAt bytes c d) (reads : List Cursor.Read) :
    ∃ last, c.history reads = some ((d.history reads).1, last) ∧
      StandsAt bytes last (d.history reads).2 := by
  induction reads generalizing c d with
  | nil => exact ⟨c, rfl, h⟩
  | cons read reads ih =>
      have hagree := perform_agrees hlength h read
      rw [history, Cursor.history]
      generalize c.perform read = r at hagree
      generalize d.perform read = r' at hagree
      cases hagree with
      | intro hnext =>
          obtain ⟨last, hbehind, hlast⟩ := ih hnext
          refine ⟨last, ?_, hlast⟩
          dsimp only
          rw [hbehind]

end IndexedCursor

namespace Cursor

/--
Reads lose no byte, repeat none and keep their order, however they follow one another.

After any reads from the start of a byte string, failed ones among them, the
bytes delivered are those before the cursor.  The next read fails exactly if
fewer bytes are left than it takes; it then names the position and leaves the
cursor as it is, so that single bytes can still be read up to the end.  Any other
read delivers the bytes that come next and moves behind them.  The cursor is
empty where its position is the length.

On byte strings of a length below 2 ^ 63 an indexed cursor answers all of this in
the same way, so that none of its sums overflows and it cuts out nothing beyond
the bytes.
-/
theorem reads_deliver_in_order
    (bytes : List UInt8) (reads : List Read) :
    let answers := ((ofBytes bytes).history reads).1
    let c := ((ofBytes bytes).history reads).2
    let left := bytes.length - c.position
    answers.length = reads.length ∧
    (∀ more : List Read,
      (ofBytes bytes).history (reads ++ more) =
        (answers ++ (c.history more).1, (c.history more).2)) ∧
    c.position ≤ bytes.length ∧
    delivered answers = bytes.take c.position ∧
    (c.isEmpty = true ↔ c.position = bytes.length) ∧
    (∀ read : Read,
      ((∃ fault, (c.perform read).1 = .error fault) ↔
        left < read.width) ∧
      (left < read.width →
        c.perform read = (.error (.unexpectedEnd c.position), c)) ∧
      (read.width ≤ left →
        ∃ delivery : Delivery,
          delivery.read = read ∧
          delivery.bytes = (bytes.drop c.position).take read.width ∧
          (c.perform read).1 = .ok delivery ∧
          (c.perform read).2.position = c.position + read.width)) ∧
    c.history (List.replicate left .byte) =
      ((bytes.drop c.position).map fun b => .ok (.byte b),
        ⟨bytes.length, []⟩) ∧
    (bytes.length < 2 ^ 63 →
      ∃ last : IndexedCursor,
        (IndexedCursor.ofOffset bytes 0).history reads =
          some (answers, last) ∧
        last.bytes = bytes ∧
        last.index.toNat = c.position ∧
        last.isEmpty = c.isEmpty) := by
  intro answers c left
  obtain ⟨hdelivered, hrest, hwithin⟩ := history_ofBytes bytes reads
  have hleft : c.rest.length = left := by
    rw [hrest, List.length_drop]
  have hempty : c.isEmpty = true ↔ c.position = bytes.length := by
    rw [isEmpty, List.isEmpty_iff, hrest, List.drop_eq_nil_iff]
    exact ⟨fun h => Nat.le_antisymm hwithin h, Nat.le_of_eq ∘ Eq.symm⟩
  refine ⟨length_history _ reads, history_append _ reads, hwithin,
    hdelivered, hempty, ?_, ?_, ?_⟩
  · intro read
    have hfails (hshort : left < read.width) :
        c.perform read = (.error (.unexpectedEnd c.position), c) :=
      perform_of_length_lt (hleft ▸ hshort)
    refine ⟨⟨?_, ?_⟩, hfails, ?_⟩
    · rintro ⟨fault, hfault⟩
      refine Nat.lt_of_not_le ?_
      intro hlong
      obtain ⟨delivery, _, _, hread⟩ :=
        perform_of_le_length (c := c) (hleft ▸ hlong)
      rw [hread] at hfault
      cases hfault
    · intro hshort
      exact ⟨_, congrArg Prod.fst (hfails hshort)⟩
    · intro hlong
      obtain ⟨delivery, hkind, hbytes, hread⟩ :=
        perform_of_le_length (c := c) (hleft ▸ hlong)
      rw [hrest] at hbytes
      exact ⟨delivery, hkind, hbytes, congrArg Prod.fst hread,
        congrArg (fun r => r.2.position) hread⟩
  · have hbehind := history_replicate_byte c
    have hend : c.position + left = bytes.length :=
      Nat.add_sub_of_le hwithin
    rw [hleft, hrest, hend] at hbehind
    exact hbehind
  · intro hlength
    obtain ⟨last, hlast, hstands⟩ :=
      IndexedCursor.exists_history hlength
        (IndexedCursor.standsAt_ofBytes bytes) reads
    refine ⟨last, hlast, hstands.bytes_eq, hstands.index_eq, ?_⟩
    exact hstands.isEmpty_eq

/-- A byte, a NaN, an operand for which too little is left, and a byte again. -/
theorem reads_deliver_in_order_nan :
    let bytes : List UInt8 := [2, 1, 0, 192, 127, 9, 9]
    let reads : List Read := [.byte, .value, .operand]
    let answers := ((ofBytes bytes).history reads).1
    let c := ((ofBytes bytes).history reads).2
    c.position = 5 ∧
      delivered answers = [2, 1, 0, 192, 127] ∧
      c.perform .operand = (.error (.unexpectedEnd 5), c) ∧
      (∃ delivery : Delivery,
        delivery.bytes = [9] ∧ (c.perform .byte).1 = .ok delivery) ∧
      ∃ last : IndexedCursor,
        (IndexedCursor.ofOffset bytes 0).history reads =
          some (answers, last) ∧
        last.index.toNat = 5 := by
  intro bytes reads answers c
  obtain ⟨_, _, _, hdelivered, _, hnext, _, hindexed⟩ :=
    reads_deliver_in_order bytes reads
  have hposition : c.position = 5 := by cbv
  obtain ⟨_, hfails, _⟩ := hnext .operand
  obtain ⟨_, _, hreads⟩ := hnext .byte
  obtain ⟨delivery, _, hbytes, hanswer, _⟩ := hreads (by decide)
  obtain ⟨last, hlast, _, hindex, _⟩ := hindexed (by decide)
  refine ⟨hposition, hdelivered, hfails (by decide),
    ⟨delivery, hbytes, hanswer⟩, last, hlast, ?_⟩
  exact hindex

end Cursor

end Cursors

end ArithMachine
