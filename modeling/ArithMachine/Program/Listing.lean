import ArithMachine.Hex
import ArithMachine.Program.Basic

/-!
# Listings

The listing of a program has one row for each instruction: its offset in the
wire form, the source line, the bytes and the text of the instruction.  An
instruction that stems from the same line as the one before it shows a bar in
place of the line.
-/

namespace ArithMachine

section Listings

/-- One row of a listing, without a line where a bar is shown. -/
structure Row where
  offset : Nat
  line? : Option Nat
  instruction : Instruction
deriving DecidableEq, Repr

namespace Row

/-- How wide the line column is, unless a line is longer. -/
def lineWidth : Nat :=
  4

/-- The line column before it is padded. -/
def lineMark (r : Row) : List Char :=
  match r.line? with
  | none => ['|']
  | some line => Nat.toDigits 10 line

/-- The four columns, with a blank between each two. -/
def text (r : Row) : List Char :=
  Nat.toDigits 10 r.offset ++
    ' ' :: (r.lineMark.leftpad lineWidth ' ' ++
      ' ' :: '0' :: 'x' :: (Hex.spaced r.instruction.encode ++
        ' ' :: r.instruction.characters))

/-- The text of a row, and the end of its line. -/
def characters (r : Row) : List Char :=
  r.text ++ ['\n']

end Row

namespace Program

/-- Rows from an offset on, where the row before had the given line. -/
def rowsFrom (offset : Nat) (previous? : Option Nat) :
    List (Instruction × Nat) → List Row
  | [] => []
  | (i, line) :: pairs =>
      let line? := if previous? = some line then none else some line
      ⟨offset, line?, i⟩ :: rowsFrom (offset + i.encode.length) (some line) pairs

/-- The rows of the listing. -/
def rows (p : Program) : List Row :=
  rowsFrom 0 none p.toList

/-- The listing. -/
def listing (p : Program) : String :=
  String.ofList (p.rows.flatMap Row.characters)

end Program

end Listings

end ArithMachine
