import ArithMachine.Program.Reading
import ArithMachine.Proofs.Listings

/-!
# Listings can be read back

The reader of listings recovers each program from its listing, instructions and
lines.  Row by row, the line column is found between blanks and cannot be mistaken
for a bar, and the bytes end where the text of the instruction begins, since no
instruction has a name whose front could be a byte.  The lines behind bars follow
by induction over the rows, with the line of the row before as what the reader
carries along.

In particular two programs with one listing are the same program.  The numbers
shown in the text of an instruction do not enter into this: NaNs of different
words have one text, and are told apart by their bytes.
-/

namespace ArithMachine

section Reading

section Columns

theorem textLines_append
    {line : List Char}
    (h : '\n' ∉ line) (rest : List Char) :
    textLines (line ++ '\n' :: rest) = line :: textLines rest := by
  induction line with
  | nil => simp [textLines]
  | cons c line ih =>
      simp only [List.mem_cons, not_or] at h
      have hc : c ≠ '\n' := fun heq => h.1 heq.symm
      rw [List.cons_append, textLines, if_neg hc, ih h.2]

/-- Texts that are each ended by a newline are the lines of what they make up. -/
theorem textLines_flatMap
    {texts : List (List Char)}
    (h : ∀ text ∈ texts, '\n' ∉ text) :
    textLines (texts.flatMap (· ++ ['\n'])) = texts := by
  induction texts with
  | nil => rfl
  | cons text texts ih =>
      have htext : '\n' ∉ text := h text List.mem_cons_self
      have htexts : ∀ text ∈ texts, '\n' ∉ text :=
        fun text hmem => h text (List.mem_cons_of_mem _ hmem)
      rw [List.flatMap_cons, List.append_assoc, List.singleton_append,
        textLines_append htext, ih htexts]

variable {word : List Char}

theorem ne_blank_of_mem
    (h : ' ' ∉ word) :
    ∀ c ∈ word, decide (c ≠ ' ') = true := by
  intro c hmem
  exact decide_eq_true fun heq => h (heq ▸ hmem)

theorem takeWhile_word
    (h : ' ' ∉ word) (rest : List Char) :
    (word ++ ' ' :: rest).takeWhile (· ≠ ' ') = word := by
  rw [List.takeWhile_append_of_pos (ne_blank_of_mem h)]
  simp

theorem dropWhile_word
    (h : ' ' ∉ word) (rest : List Char) :
    (word ++ ' ' :: rest).dropWhile (· ≠ ' ') = ' ' :: rest := by
  rw [List.dropWhile_append_of_pos (ne_blank_of_mem h)]
  simp

theorem dropWhile_blanks
    (n : Nat) (hne : word ≠ []) (h : ' ' ∉ word) (rest : List Char) :
    (List.replicate n ' ' ++ (word ++ rest)).dropWhile (· = ' ') =
      word ++ rest := by
  have hblanks : ∀ c ∈ List.replicate n ' ', decide (c = ' ') = true := by
    intro c hmem
    exact decide_eq_true (List.eq_of_mem_replicate hmem)
  rw [List.dropWhile_append_of_pos hblanks]
  cases word with
  | nil => exact absurd rfl hne
  | cons c word =>
      have hc : c ≠ ' ' := fun heq => h (heq ▸ List.mem_cons_self)
      rw [List.cons_append]
      simp [hc]

end Columns

section Bytes

/-- The text of an instruction does not begin with a byte. -/
theorem Instruction.leadingBytes_characters (i : Instruction) :
    Hex.leadingBytes i.characters = [] := by
  cases i with
  | immediate value =>
      rw [characters_immediate]
      simp [Hex.leadingBytes]
  | ret | negate => decide
  | binary op =>
      cases op with
      | add | subtract | multiply | divide => decide

theorem decode_encode_single (i : Instruction) :
    decode i.encode = .ok [i] := by
  have hone := decode_encode [i]
  rwa [encode_cons, encode_nil, List.append_nil] at hone

theorem Instruction.leadingBytes_spaced (i : Instruction) :
    Hex.leadingBytes (Hex.spaced i.encode ++ ' ' :: i.characters) =
      i.encode := by
  rw [encode, Hex.spaced_append]
  exact Hex.leadingBytes_append _ i.leadingBytes_characters

end Bytes

namespace Row

variable (r : Row)

theorem lineMark_ne_nil : r.lineMark ≠ [] := by
  unfold lineMark
  split
  · exact List.cons_ne_nil _ _
  · exact Nat.toDigits_ne_nil

theorem blank_not_mem_lineMark : ' ' ∉ r.lineMark := by
  unfold lineMark
  split
  · decide
  · exact not_mem_toDigits rfl _

/-- The line column tells the line, and whether there is one. -/
theorem readMark?_lineMark :
    readMark? r.lineMark = some r.line? := by
  unfold lineMark
  cases r.line? with
  | none => rfl
  | some line =>
      have hbar : Nat.toDigits 10 line ≠ ['|'] := by
        intro heq
        have hmem : '|' ∉ Nat.toDigits 10 line := not_mem_toDigits rfl line
        rw [heq] at hmem
        exact hmem List.mem_cons_self
      rw [readMark?, if_neg hbar, Decimal.digits?_toDigits]
      rfl

/-- A row is read back from its text. -/
theorem read?_text :
    read? r.text = some (r.line?, r.instruction) := by
  have hoffset : ' ' ∉ Nat.toDigits 10 r.offset := not_mem_toDigits rfl _
  have hmark := r.blank_not_mem_lineMark
  let shown :=
    Hex.spaced r.instruction.encode ++ ' ' :: r.instruction.characters
  have htext :
      r.text =
        Nat.toDigits 10 r.offset ++
          ' ' :: (List.replicate (lineWidth - r.lineMark.length) ' ' ++
            (r.lineMark ++ ' ' :: '0' :: 'x' :: shown)) := by
    simp [text, shown, List.leftpad]
  -- The blank behind the offset is dropped together with the padding.
  have hcolumns :
      (r.text.dropWhile (· ≠ ' ')).dropWhile (· = ' ') =
        r.lineMark ++ ' ' :: '0' :: 'x' :: shown := by
    rw [htext, dropWhile_word hoffset, ← List.cons_append,
      ← List.replicate_succ, dropWhile_blanks _ r.lineMark_ne_nil hmark]
  have hbytes : Hex.leadingBytes shown = r.instruction.encode :=
    r.instruction.leadingBytes_spaced
  simp only [read?, hcolumns, takeWhile_word hmark, dropWhile_word hmark,
    List.drop_succ_cons, List.drop_zero, hbytes, decode_encode_single,
    readMark?_lineMark]
  rfl

end Row

namespace Program

/-- Rows are read back with the lines of the pairs that they show. -/
theorem readRows?_rowsFrom
    (offset : Nat) (previous? : Option Nat)
    (pairs : List (Instruction × Nat)) :
    readRows? previous? ((rowsFrom offset previous? pairs).map Row.text) =
      some pairs := by
  induction pairs generalizing offset previous? with
  | nil => rfl
  | cons pair pairs ih =>
      rcases pair with ⟨i, line⟩
      -- A bar is shown only where the line carried along is the one to be read.
      have hline :
          (if previous? = some line then none else some line).or previous? =
            some line := by
        by_cases hsame : previous? = some line
        · rw [if_pos hsame, hsame]
          rfl
        · rw [if_neg hsame]
          rfl
      simp only [rowsFrom, List.map_cons, readRows?, Row.read?_text,
        Option.bind_eq_bind, Option.bind_some, hline, ih]
      rfl

theorem ofList_toList (p : Program) :
    ofList p.toList = p :=
  Program.ext p.map_fst_toList p.map_snd_toList

/-- A program is read back from its listing. -/
theorem ofListing?_listing (p : Program) :
    ofListing? p.listing = some p := by
  have hlines : ∀ text ∈ p.rows.map Row.text, '\n' ∉ text :=
    fun _ hmem => newline_not_mem_of_mem_rows hmem
  rw [ofListing?, toList_listing, textLines_flatMap hlines, rows,
    readRows?_rowsFrom, Option.map_some, ofList_toList]

/--
Nothing about a program is lost in its listing.

The program can be read back from the text alone, with the words of its values and
with the lines that are shown as bars.  Two programs therefore have one listing
exactly when their instructions are the same, word by word, and their lines are
the same.
-/
theorem listing_lossless :
    (∀ p : Program, ofListing? p.listing = some p) ∧
    (∀ p q : Program,
      p.listing = q.listing ↔
        p.instructions = q.instructions ∧ p.lines = q.lines) := by
  refine ⟨ofListing?_listing, ?_⟩
  intro p q
  constructor
  · intro h
    have hread := ofListing?_listing p
    rw [h, ofListing?_listing] at hread
    obtain rfl := Option.some.inj hread
    exact ⟨rfl, rfl⟩
  · rintro ⟨hinstructions, hlines⟩
    rw [Program.ext hinstructions hlines]

end Program

end Reading

end ArithMachine
