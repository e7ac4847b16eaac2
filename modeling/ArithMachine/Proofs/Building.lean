import ArithMachine.Proofs.Reading

/-!
# Building programs

A program is built from a list of pairs, and grows at its end by one instruction
with its line at a time.  Either way it is the program of its pairs, so that it does
not matter how they were put in.

The wire form and the listing grow at their ends too.  For the listing this is a
statement about the fold that makes its rows: what the fold carries behind a list of
pairs, the offset and the line of the last pair, is what it starts with on the
pairs that follow.
-/

namespace ArithMachine

section Building

/-- Rows of a list come before the rows of what follows it. -/
theorem rowsFrom_append
    (offset : Nat) (previous? : Option Nat)
    (pairs more : List (Instruction × Nat)) :
    Program.rowsFrom offset previous? (pairs ++ more) =
      Program.rowsFrom offset previous? pairs ++
        Program.rowsFrom
          (offset + (encode (pairs.map Prod.fst)).length)
          ((pairs.map Prod.snd).getLast?.or previous?) more := by
  induction pairs generalizing offset previous? with
  | nil => rfl
  | cons pair pairs ih =>
      rcases pair with ⟨i, line⟩
      have hline :
          ((pairs.map Prod.snd).getLast?.or (some line)) =
            (((i, line) :: pairs).map Prod.snd).getLast?.or previous? := by
        cases hlast : (pairs.map Prod.snd).getLast? with
        | none => simp [List.getLast?_cons, hlast]
        | some last => simp [List.getLast?_cons, hlast]
      rw [List.cons_append, Program.rowsFrom, ih, hline, Program.rowsFrom]
      simp [Nat.add_assoc]

namespace Program

/-- The program with a list of pairs put in behind its own. -/
def addAll (p : Program) (pairs : List (Instruction × Nat)) : Program :=
  pairs.foldl (fun q pair => q.add pair.1 pair.2) p

/-- The row that a further instruction has in the listing. -/
def nextRow (p : Program) (i : Instruction) (line : Nat) : Row where
  offset := p.encode.length
  line? := if p.lines.getLast? = some line then none else some line
  instruction := i

variable (p : Program)

theorem addAll_append (pairs more : List (Instruction × Nat)) :
    p.addAll (pairs ++ more) = (p.addAll pairs).addAll more :=
  List.foldl_append

theorem toList_addAll (pairs : List (Instruction × Nat)) :
    (p.addAll pairs).toList = p.toList ++ pairs := by
  induction pairs generalizing p with
  | nil => exact (List.append_nil _).symm
  | cons pair pairs ih =>
      have hone : (p.add pair.1 pair.2).toList = p.toList ++ [pair] :=
        toList_add p pair.1 pair.2
      rw [show p.addAll (pair :: pairs) =
        (p.add pair.1 pair.2).addAll pairs from rfl, ih, hone,
        List.append_assoc, List.singleton_append]

/-- A program is determined by its pairs. -/
theorem toList_injective : Function.Injective toList := by
  intro p q h
  rw [← ofList_toList p, h, ofList_toList]

theorem ofList_eq_addAll (pairs : List (Instruction × Nat)) :
    ofList pairs = empty.addAll pairs := by
  apply toList_injective
  rw [toList_ofList, toList_addAll, toList_empty, List.nil_append]

theorem rows_add (i : Instruction) (line : Nat) :
    (p.add i line).rows = p.rows ++ [p.nextRow i line] := by
  rw [rows, toList_add, rowsFrom_append, map_fst_toList, map_snd_toList,
    Option.or_none, Nat.zero_add, rows]
  rfl

theorem listing_add (i : Instruction) (line : Nat) :
    (p.add i line).listing =
      p.listing ++ String.ofList ((p.nextRow i line).text ++ ['\n']) := by
  rw [listing, rows_add, List.flatMap_append, List.flatMap_singleton,
    Row.characters, String.ofList_append, listing]

theorem takeWhile_text (r : Row) :
    r.text.takeWhile (· ≠ ' ') = Nat.toDigits 10 r.offset :=
  takeWhile_word (not_mem_toDigits rfl _) _

/--
The two lists of a program stay in step, and a program grows only at its end.

A program that was collected from pairs and then grew by further ones has as many
lines as instructions.  Its pairs are those that were put in, in their order; they
make up the same program when they are collected, and also when all of them are put
in one at a time.

A further instruction leaves the wire form and the listing as they are and adds to
their ends.  The wire form grows by that of the instruction, the listing by one line.
The line begins with the length of the wire form as it was.
-/
theorem building_in_step (pairs more : List (Instruction × Nat)) :
    let p := (ofList pairs).addAll more
    p.instructions.length = p.lines.length ∧
    p.toList = pairs ++ more ∧
    p.toList.length = p.instructions.length ∧
    ofList p.toList = p ∧
    ofList (pairs ++ more) = p ∧
    empty.addAll (pairs ++ more) = p ∧
    ∀ (i : Instruction) (line : Nat),
      (p.add i line).encode = p.encode ++ i.encode ∧
      ∃ text : List Char,
        (p.add i line).listing =
          p.listing ++ String.ofList (text ++ ['\n']) ∧
        '\n' ∉ text ∧
        text.takeWhile (· ≠ ' ') = Nat.toDigits 10 p.encode.length ∧
        text = (p.nextRow i line).text := by
  intro p
  have hpairs : p.toList = pairs ++ more := by
    rw [toList_addAll, toList_ofList]
  have hall : empty.addAll (pairs ++ more) = p := by
    rw [addAll_append, ← ofList_eq_addAll]
  refine ⟨p.length_lines.symm, hpairs, ?_, p.ofList_toList, ?_, hall, ?_⟩
  · rw [toList, List.length_zip, p.length_lines, Nat.min_self]
  · rw [ofList_eq_addAll, hall]
  · intro i line
    refine ⟨p.encode_add i line, (p.nextRow i line).text,
      p.listing_add i line, Row.newline_not_mem_text _, ?_, rfl⟩
    exact takeWhile_text _

end Program

end Building

end ArithMachine
