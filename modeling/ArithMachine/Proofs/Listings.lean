import ArithMachine.Proofs.Texts
import ArithMachine.Proofs.Transcripts

/-!
# Listings and the wire form

The rows of a listing are built by a fold that carries an offset and the line of
the row before.  This module says what the fold amounts to: the row of an
instruction shows the offset at which the instruction starts in the wire form,
the bytes of the wire form from there to the start of the next instruction, and
a bar exactly when the line is that of the instruction before.  The fold counts
the bytes that it has shown; that these are as many as the opcodes announce is
`Program.offset_eq`.

A run over the wire form reports its tags at the same offsets.  It reports one
for each row that it reaches, `Course.events_of_encode`, so that a log can be
read beside the listing row by row.
-/

namespace ArithMachine

section Listings

/-- The offset and the byte of an opcode event. -/
def Event.tag? : Event → Option (Nat × UInt8)
  | opcode offset byte => some (offset, byte)
  | _ => none

namespace Program

/-- Where the instruction at a place starts in the wire form. -/
def offset (p : Program) (k : Nat) : Nat :=
  ((p.instructions.take k).map Instruction.encodedLength).sum

/-- The bytes of the wire form from the start at a place to the next one. -/
def bytesAt (p : Program) (k : Nat) : List UInt8 :=
  (p.encode.take (p.offset (k + 1))).drop (p.offset k)

/-- What the listing shows at a place, in columns, where the column of the bytes is given. -/
def rowText (p : Program) (k : Nat) (i : Instruction) (line : Nat)
    (hex : List Char) : List Char :=
  let mark :=
    if 0 < k ∧ p.lines[k]? = p.lines[k - 1]? then
      ['|']
    else
      Nat.toDigits 10 line
  Nat.toDigits 10 (p.offset k) ++ [' '] ++
    (List.replicate (4 - mark.length) ' ' ++ mark) ++ [' ', '0', 'x'] ++
    hex ++ [' '] ++ i.characters

end Program

section WireForm

/-- Each instruction takes one byte, and an immediate four more. -/
theorem length_encode_eq_add (is : List Instruction) :
    (encode is).length =
      is.length + 4 * is.countP fun i => i.opcode = .immediate := by
  induction is with
  | nil => rfl
  | cons i is ih =>
      rw [encode_cons, List.length_append, ih, Instruction.length_encode,
        Instruction.encodedLength]
      cases i with
      | immediate value =>
          simp [Instruction.opcode, Opcode.operandLength]
          omega
      | ret | negate | binary op =>
          simp [Instruction.opcode, Opcode.operandLength]
          omega

end WireForm

namespace Program

variable {p : Program} {k : Nat} {i : Instruction} {line : Nat}

theorem offset_eq (p : Program) (k : Nat) :
    p.offset k =
      (ArithMachine.encode (p.instructions.take k)).length :=
  (length_encode_eq_sum _).symm

theorem getElem?_toList :
    p.toList[k]? = some (i, line) ↔
      p.instructions[k]? = some i ∧ p.lines[k]? = some line :=
  List.getElem?_zip_eq_some

theorem offset_succ
    (h : p.instructions[k]? = some i) :
    p.offset (k + 1) = p.offset k + i.encodedLength := by
  simp [offset, List.take_add_one, h]

theorem drop_offset
    (h : p.instructions[k]? = some i) :
    p.encode.drop (p.offset k) =
      i.encode ++ p.encode.drop (p.offset (k + 1)) := by
  have hsplit : p.encode = _ := encode_of_getElem? h
  rw [offset_succ h, ← List.drop_drop, hsplit, offset_eq, List.drop_left,
    ← i.length_encode, List.drop_left]

theorem bytesAt_eq
    (h : p.instructions[k]? = some i) :
    p.bytesAt k = i.encode := by
  rw [bytesAt, List.drop_take, drop_offset h, offset_succ h,
    Nat.add_sub_cancel_left, ← i.length_encode, List.take_left]

/-- The columns of bytes of the listing, read back and put together, are the wire form. -/
theorem flatMap_leadingBytes (p : Program) :
    (p.instructions.map fun i => Hex.spaced i.encode).flatMap
        (fun hex => Hex.leadingBytes (hex ++ [' '])) =
      p.encode := by
  rw [List.flatMap_map, encode, ArithMachine.encode]
  exact List.flatMap_congr fun i _ => Hex.leadingBytes_spaced i.encode

/-- The bytes between the starts of the instructions are the whole wire form. -/
theorem flatMap_bytesAt (p : Program) (k : Nat) :
    (List.range k).flatMap p.bytesAt = p.encode.take (p.offset k) := by
  induction k with
  | zero => simp [offset]
  | succ k ih =>
      have hle : p.offset k ≤ p.offset (k + 1) := by
        simp [offset, List.take_add_one]
      rw [List.range_succ, List.flatMap_append, ih, List.flatMap_singleton,
        bytesAt]
      calc
        p.encode.take (p.offset k) ++
            (p.encode.take (p.offset (k + 1))).drop (p.offset k) =
          (p.encode.take (p.offset (k + 1))).take (p.offset k) ++
            (p.encode.take (p.offset (k + 1))).drop (p.offset k) := by
          rw [List.take_take, Nat.min_eq_left hle]
        _ = p.encode.take (p.offset (k + 1)) := List.take_append_drop _ _

/-- A reader that stands at the start of an instruction reads it, and stands at the next start. -/
theorem readInstruction_offset
    (h : p.instructions[k]? = some i) :
    (Cursor.mk (p.offset k) (p.encode.drop (p.offset k))).readInstruction =
      .ok (i, ⟨p.offset (k + 1), p.encode.drop (p.offset (k + 1))⟩) :=
  Cursor.readInstruction_eq_ok_iff.mpr ⟨drop_offset h, offset_succ h⟩

end Program

section Rows

theorem Row.newline_not_mem_text (r : Row) :
    '\n' ∉ r.text := by
  have hdigits (n : Nat) : '\n' ∉ Nat.toDigits 10 n := not_mem_toDigits rfl n
  have hmark : '\n' ∉ r.lineMark := by
    unfold lineMark
    split
    · decide
    · exact hdigits _
  simp [text, List.leftpad, List.mem_replicate, hdigits, hmark,
    Hex.newline_not_mem_spaced, Instruction.newline_not_mem_characters]

/-- The line of the pair before a place, or what is given for the first place. -/
def lineBefore? (previous? : Option Nat) (pairs : List (Instruction × Nat)) :
    Nat → Option Nat
  | 0 => previous?
  | k + 1 => pairs[k]?.map Prod.snd

theorem length_rowsFrom
    (offset : Nat) (previous? : Option Nat)
    (pairs : List (Instruction × Nat)) :
    (Program.rowsFrom offset previous? pairs).length = pairs.length := by
  induction pairs generalizing offset previous? with
  | nil => rfl
  | cons pair pairs ih => simp [Program.rowsFrom, ih]

/-- The row at a place, whatever offset and line the fold has started with. -/
theorem getElem?_rowsFrom
    {pairs : List (Instruction × Nat)} {k : Nat}
    {i : Instruction} {line : Nat}
    (h : pairs[k]? = some (i, line))
    (offset : Nat) (previous? : Option Nat) :
    (Program.rowsFrom offset previous? pairs)[k]? =
      some
        { offset :=
            offset + (encode ((pairs.take k).map Prod.fst)).length
          line? :=
            if lineBefore? previous? pairs k = some line then
              none
            else
              some line
          instruction := i } := by
  -- The fold carries an offset and a line, so that both are generalized.
  induction pairs generalizing k offset previous? with
  | nil => cases h
  | cons pair pairs ih =>
      rcases pair with ⟨j, before⟩
      cases k with
      | zero =>
          cases h
          rfl
      | succ k =>
          have hbefore :
              lineBefore? (some before) pairs k =
                lineBefore? previous? ((j, before) :: pairs) (k + 1) := by
            cases k with
            | zero => rfl
            | succ k => rfl
          rw [Program.rowsFrom, List.getElem?_cons_succ, ih h, hbefore]
          simp [Nat.add_assoc]

/-- The row of an instruction shows what stands in its columns. -/
theorem Program.text_of_getElem?
    {p : Program} {k : Nat} {i : Instruction} {line : Nat}
    (h : p.toList[k]? = some (i, line)) :
    (p.rows.map Row.text)[k]? =
      some (p.rowText k i line (Hex.spaced i.encode)) := by
  obtain ⟨-, hline⟩ := getElem?_toList.mp h
  have hoffset :
      0 + (ArithMachine.encode ((p.toList.take k).map Prod.fst)).length =
        p.offset k := by
    rw [List.map_take, map_fst_toList, offset_eq, Nat.zero_add]
  have hbar :
      lineBefore? none p.toList k = some line ↔
        0 < k ∧ p.lines[k]? = p.lines[k - 1]? := by
    cases k with
    | zero => simp [lineBefore?]
    | succ k =>
        rw [lineBefore?, ← List.getElem?_map, map_snd_toList, hline]
        simp [eq_comm]
  rw [List.getElem?_map, rows, getElem?_rowsFrom h, hoffset,
    Option.map_some, rowText]
  by_cases hsame : 0 < k ∧ p.lines[k]? = p.lines[k - 1]?
  · rw [if_pos (hbar.mpr hsame), if_pos hsame]
    simp [Row.text, Row.lineMark, Row.lineWidth, List.leftpad]
  · rw [if_neg (fun hshown => hsame (hbar.mp hshown)), if_neg hsame]
    simp [Row.text, Row.lineMark, Row.lineWidth, List.leftpad]

/-- The listing is made of the texts of its rows, each ended by a newline. -/
theorem Program.toList_listing (p : Program) :
    p.listing.toList = (p.rows.map Row.text).flatMap (· ++ ['\n']) := by
  rw [listing, String.toList_ofList, List.flatMap_map]
  rfl

theorem Program.newline_not_mem_of_mem_rows
    {p : Program} {text : List Char}
    (h : text ∈ p.rows.map Row.text) :
    '\n' ∉ text := by
  obtain ⟨r, -, rfl⟩ := List.mem_map.mp h
  exact r.newline_not_mem_text

end Rows

section Tags

/-- The tags that instructions report stand where the instructions start. -/
theorem filterMap_tag?_eventsFrom
    (offset : Nat) (is : List Instruction) :
    (eventsFrom offset is).filterMap Event.tag? =
      is.mapIdx fun k i =>
        (offset + (encode (is.take k)).length, i.opcode.toByte) := by
  induction is generalizing offset with
  | nil => rfl
  | cons i is ih =>
      have hfirst :
          (i.events offset).filterMap Event.tag? =
            [(offset, i.opcode.toByte)] := by
        cases i with
        | immediate value => rfl
        | ret | negate | binary op => rfl
      rw [eventsFrom, List.filterMap_append, hfirst, ih, List.mapIdx_cons]
      simp [Nat.add_assoc]

/-- Each tag reported for a program is the first byte of its instruction. -/
theorem Program.getElem?_tags
    {p : Program} {k turns : Nat} {i : Instruction}
    (hk : k < turns)
    (hi : p.instructions[k]? = some i) :
    ((eventsFrom 0 (p.instructions.take turns)).filterMap Event.tag?)[k]? =
      some (p.offset k, i.opcode.toByte) := by
  rw [filterMap_tag?_eventsFrom, List.getElem?_mapIdx,
    List.getElem?_take_of_lt hk, hi, Option.map_some, List.take_take,
    Nat.min_eq_left (Nat.le_of_lt hk), ← offset_eq, Nat.zero_add]

/-- Over a wire form, a run reports at its end what the next instruction reports, if there is one. -/
theorem Ends.last_of_encode
    {s : State} {last : List Event} {answer : Answer}
    {is : List Instruction}
    (h : Ends s last answer)
    (hrest : s.cursor.rest = encode is) :
    last = eventsFrom s.cursor.position (is.take 1) := by
  rcases s with ⟨⟨position, rest⟩, stack⟩
  obtain rfl : rest = encode is := hrest
  cases is with
  | nil =>
      cases h with
      | done => rfl
      | unknown hrest => cases hrest
      | truncated hrest => cases hrest
      | stop hrest => cases hrest
  | cons i is =>
      -- An instruction can be read here, so that the run ends at it and not at a defect.
      have hread :
          (Cursor.mk position (encode (i :: is))).readInstruction =
            .ok (i, ⟨position + i.encodedLength, encode is⟩) :=
        Cursor.readInstruction_encode i
      cases h with
      | done hrest => cases hrest
      | unknown hrest htag =>
          dsimp only at hrest
          rw [hrest, Cursor.readInstruction_unknown htag] at hread
          cases hread
      | truncated hrest hshort =>
          dsimp only at hrest
          rw [hrest, Cursor.readInstruction_truncated hshort] at hread
          cases hread
      | stop hrest =>
          dsimp only at hrest
          rw [hrest, Cursor.readInstruction_encode] at hread
          cases hread
          simp [eventsFrom]

/-- Over a wire form, a run reports its instructions as far as it reaches. -/
theorem Course.events_of_encode
    {config : Config} {p : Program} {is : List Instruction} {t : State}
    {last : List Event} {answer : Answer}
    (h : Course (.initial config p.encode) is t last answer) :
    (Machine.transcript config p.encode).events =
        eventsFrom 0 (p.instructions.take (is.length + 1)) ∧
      t.cursor.position = p.offset is.length := by
  obtain ⟨js, hlist, hrest⟩ := exists_of_encode_eq_append h.read
  obtain ⟨hposition, -, -⟩ := h.cursor_of_initial
  have htake : p.instructions.take (is.length + 1) = is ++ js.take 1 := by
    rw [hlist, List.take_append]
    simp
  refine ⟨?_, ?_⟩
  · rw [h.transcript_eq, h.ends.last_of_encode hrest, htake,
      eventsFrom_append, hposition, Nat.zero_add]
  · rw [hposition, Program.offset_eq, hlist, List.take_left]

end Tags

namespace Program

open Machine

/--
The listing, the wire form and a run agree on every offset and every byte.

The listing has one line for each instruction, ended by a newline.  A line shows
where the instruction starts, its source line or a bar, the bytes of the wire form
up to the next start, and the text of the instruction.  The bytes can be read from
their column, two lowercase digits each with a blank between, and what is read from
all columns, one after the other, is the whole wire form.  A reader that goes from
start to start reads the instructions.  All of this holds of any bytes that decode
to the instructions.

Under every limit, the opcode events of a run over the wire form are, one by one,
the offsets and the first bytes of the lines, as far as the run reaches.
-/
theorem listing_agrees_with_wireForm (p : Program) :
    (∃ texts columns : List (List Char),
      p.listing.toList = texts.flatMap (· ++ ['\n']) ∧
      (∀ text ∈ texts, '\n' ∉ text) ∧
      texts.length = p.size ∧
      columns.length = p.size ∧
      (∀ (k : Nat) (i : Instruction) (line : Nat),
        p.toList[k]? = some (i, line) →
        ∃ hex : List Char,
          columns[k]? = some hex ∧
          Hex.Writes hex (p.bytesAt k) ∧
          texts[k]? = some (p.rowText k i line hex)) ∧
      columns.flatMap (fun hex => Hex.leadingBytes (hex ++ [' '])) =
        p.encode) ∧
    (List.range p.size).flatMap p.bytesAt = p.encode ∧
    p.encode.length =
      p.size + 4 * p.instructions.countP (fun i => i.opcode = .immediate) ∧
    (∀ (k : Nat) (i : Instruction),
      p.instructions[k]? = some i →
      (Cursor.mk (p.offset k) (p.encode.drop (p.offset k))).readInstruction =
        .ok (i, ⟨p.offset (k + 1), p.encode.drop (p.offset (k + 1))⟩)) ∧
    (∀ bytes : List UInt8,
      decode bytes = .ok p.instructions → bytes = p.encode) ∧
    (∀ config : Config,
      let start := State.initial config p.encode
      let tags := (transcript config p.encode).events.filterMap Event.tag?
      ∃ turns : Nat,
        (∃ (log : Array Event) (s : State),
          (recording config).advance turns start #[] = some (log, s) ∧
          s.cursor.position = p.offset turns) ∧
        (recording config).advance (turns + 1) start #[] = none ∧
        tags.length = min (turns + 1) p.size ∧
        ∀ k < tags.length, ∃ byte : UInt8,
          (p.bytesAt k).head? = some byte ∧
          tags[k]? = some (p.offset k, byte)) := by
  let columns := p.instructions.map fun i => Hex.spaced i.encode
  refine ⟨⟨p.rows.map Row.text, columns, ?_, ?_, ?_, ?_, ?_, ?_⟩,
    ?_, ?_, ?_, ?_, ?_⟩
  · exact p.toList_listing
  · intro text hmem
    exact newline_not_mem_of_mem_rows hmem
  · rw [List.length_map, rows, length_rowsFrom, toList, List.length_zip,
      p.length_lines, Nat.min_self, size]
  · rw [List.length_map, size]
  · intro k i line h
    obtain ⟨hi, -⟩ := getElem?_toList.mp h
    have hcolumn : columns[k]? = some (Hex.spaced i.encode) := by
      rw [List.getElem?_map, hi, Option.map_some]
    refine ⟨_, hcolumn, ?_, text_of_getElem? h⟩
    rw [bytesAt_eq hi]
    exact Hex.writes_spaced i.encode
  · exact p.flatMap_leadingBytes
  · have hlength : p.offset p.size = p.encode.length := by
      rw [offset_eq, size, List.take_length, encode]
    rw [flatMap_bytesAt, hlength, List.take_length]
  · exact length_encode_eq_add p.instructions
  · intro k i h
    exact readInstruction_offset h
  · intro bytes h
    exact (encode_of_decode h).symm
  · intro config start tags
    obtain ⟨is, t, last, answer, hcourse⟩ :=
      exists_course_initial config p.encode
    obtain ⟨hadvance, hended⟩ := hcourse.advance (recording config) #[]
    obtain ⟨hevents, hposition⟩ := hcourse.events_of_encode
    have htags :
        tags =
          (eventsFrom 0 (p.instructions.take (is.length + 1))).filterMap
            Event.tag? := by
      rw [← hevents]
    have hlength : tags.length = min (is.length + 1) p.size := by
      rw [htags, filterMap_tag?_eventsFrom, List.length_mapIdx,
        List.length_take, size]
    refine ⟨is.length, ⟨_, t, hadvance, hposition⟩, hended, hlength, ?_⟩
    intro k hk
    rw [hlength, Nat.lt_min] at hk
    have hsize : k < p.instructions.length := hk.2
    have hi : p.instructions[k]? = some p.instructions[k] :=
      List.getElem?_eq_getElem hsize
    refine ⟨p.instructions[k].opcode.toByte, ?_, ?_⟩
    · rw [bytesAt_eq hi]
      rfl
    · rw [htags]
      exact getElem?_tags hk.1 hi

/--
A five and a return from one line, and a second return from the next line, which no
run reaches.

The bytes of the five fill their column, and the line of the first return is a bar.
-/
theorem listing_agrees_with_wireForm_bar :
    let p : Program :=
      ofList [(.immediate ⟨0x40a00000⟩, 1), (.ret, 1), (.ret, 2)]
    let bytes : List UInt8 := [2, 0, 0, 0xa0, 0x40, 1, 1]
    let tags :=
      (transcript ⟨1⟩ p.encode).events.filterMap Event.tag?
    (∃ texts columns : List (List Char),
      p.listing.toList = texts.flatMap (· ++ ['\n']) ∧
      (∀ text ∈ texts, '\n' ∉ text) ∧
      columns[0]? = some "02 00 00 a0 40".toList ∧
      texts[0]? = some "0    1 0x02 00 00 a0 40 Immediate 5.0".toList ∧
      columns[1]? = some "01".toList ∧
      texts[1]? = some "5    | 0x01 Return".toList ∧
      columns.flatMap (fun hex => Hex.leadingBytes (hex ++ [' '])) =
        p.encode) ∧
    bytes = p.encode ∧
    (Cursor.mk 5 (p.encode.drop 5)).readInstruction =
      .ok (.ret, ⟨6, p.encode.drop 6⟩) ∧
    1 < tags.length ∧
    ∃ byte : UInt8,
      (p.bytesAt 1).head? = some byte ∧ tags[1]? = some (5, byte) := by
  intro p bytes tags
  obtain ⟨⟨texts, columns, hlisting, hlines, -, -, hrow, hcolumns⟩,
    -, -, hread, hdecode, hrun⟩ := listing_agrees_with_wireForm p
  obtain ⟨turns, -, hended, hlength, htags⟩ := hrun ⟨1⟩
  obtain ⟨five, hfive, hfiveWrites, hfiveRow⟩ :=
    hrow 0 (.immediate ⟨0x40a00000⟩) 1 rfl
  obtain ⟨bar, hbar, hbarWrites, hbarRow⟩ := hrow 1 .ret 1 rfl
  obtain rfl : five = "02 00 00 a0 40".toList :=
    hfiveWrites.eq_spaced.trans (by cbv)
  obtain rfl : bar = "01".toList := hbarWrites.eq_spaced.trans (by cbv)
  obtain ⟨hfiveText, hbarText⟩ :
      p.rowText 0 (.immediate ⟨0x40a00000⟩) 1 "02 00 00 a0 40".toList =
          "0    1 0x02 00 00 a0 40 Immediate 5.0".toList ∧
        p.rowText 1 .ret 1 "01".toList = "5    | 0x01 Return".toList := by
    subst p
    decide +kernel
  have hreached : 1 < tags.length := by
    rw [hlength]
    rcases turns with _ | turns
    · cases hended
    · exact Nat.lt_min.mpr ⟨by omega, by decide⟩
  refine ⟨⟨texts, columns, hlisting, hlines, hfive, ?_, hbar, ?_, hcolumns⟩,
    ?_, ?_, hreached, ?_⟩
  · rw [hfiveRow, hfiveText]
  · rw [hbarRow, hbarText]
  · exact hdecode bytes (by cbv)
  · exact hread 1 .ret rfl
  · exact htags 1 hreached

end Program

end Listings

end ArithMachine
