import ArithMachine.Instruction

/-!
# Programs

A program is a list of instructions with a line table: for each instruction the
line of the source it came from.  Lines serve the listing only and are no part
of the wire form.

Programs grow at the end.  `Program.toList` views one as the list of its
instruction and line pairs, and `Program.ofList` builds one from such a list.
-/

namespace ArithMachine

section Programs

/-- Instructions, and the source line of each. -/
@[ext] structure Program where
  instructions : List Instruction
  lines : List Nat
  length_lines : lines.length = instructions.length := by simp
deriving DecidableEq, Repr

namespace Program

def empty : Program where
  instructions := []
  lines := []

/-- The program with one more instruction at its end. -/
def add (p : Program) (i : Instruction) (line : Nat) : Program where
  instructions := p.instructions ++ [i]
  lines := p.lines ++ [line]
  length_lines := by simp [p.length_lines]

/-- The program of a list of pairs, in their order. -/
def ofList (pairs : List (Instruction × Nat)) : Program where
  instructions := pairs.map Prod.fst
  lines := pairs.map Prod.snd

/-- The program of a list of instructions whose lines are given by their places. -/
def ofInstructions (instructions : List Instruction) (lineAt : Nat → Nat) : Program :=
  ofList (instructions.mapIdx fun place i => (i, lineAt place))

/-- The pairs of instruction and line, in order. -/
def toList (p : Program) : List (Instruction × Nat) :=
  p.instructions.zip p.lines

def size (p : Program) : Nat :=
  p.instructions.length

def isEmpty (p : Program) : Bool :=
  p.instructions.isEmpty

/-- The wire form, which leaves the lines out. -/
def encode (p : Program) : List UInt8 :=
  ArithMachine.encode p.instructions

/-- Equality in which immediates compare as numbers. -/
def numEq (p q : Program) : Bool :=
  Instruction.listNumEq p.instructions q.instructions && decide (p.lines = q.lines)

@[simp] theorem toList_empty : empty.toList = [] :=
  rfl

@[simp] theorem toList_add (p : Program) (i : Instruction) (line : Nat) :
    (p.add i line).toList = p.toList ++ [(i, line)] := by
  simp [toList, add, List.zip_append p.length_lines.symm]

@[simp] theorem map_fst_toList (p : Program) :
    p.toList.map Prod.fst = p.instructions :=
  List.map_fst_zip (Nat.le_of_eq p.length_lines.symm)

@[simp] theorem map_snd_toList (p : Program) :
    p.toList.map Prod.snd = p.lines :=
  List.map_snd_zip (Nat.le_of_eq p.length_lines)

@[simp] theorem toList_ofList (pairs : List (Instruction × Nat)) :
    (ofList pairs).toList = pairs := by
  simp [toList, ofList, List.zip_map']

@[simp] theorem encode_add (p : Program) (i : Instruction) (line : Nat) :
    (p.add i line).encode = p.encode ++ i.encode := by
  simp [encode, add]

end Program

end Programs

end ArithMachine
