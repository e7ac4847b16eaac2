import ArithMachine.Decoding
import ArithMachine.Program.Listing

/-!
# Reading listings

A listing can be read back.  Two columns of a row count: the line, where a bar
stands for the line of the row before, and the bytes, from which the instruction
is decoded.  The offset and the text of the instruction are passed over, since
they follow from the bytes.
-/

namespace ArithMachine

section ListingReader

/-- The lines of a text, each without the newline that ends it. -/
def textLines : List Char → List (List Char)
  | [] => []
  | c :: cs =>
      if c = '\n' then
        [] :: textLines cs
      else
        match textLines cs with
        | [] => [[c]]
        | line :: lines => (c :: line) :: lines

namespace Hex

/-- The number that a hexadecimal digit stands for. -/
def digit? (c : Char) : Option Nat :=
  (List.range 16).find? fun n => n.digitChar = c

/-- The bytes at the front of a text, as far as they are written with a blank behind each. -/
def leadingBytes : List Char → List UInt8
  | high :: low :: blank :: rest =>
      if blank = ' ' then
        match digit? high, digit? low with
        | some h, some l => UInt8.ofNat (16 * h + l) :: leadingBytes rest
        | _, _ => []
      else
        []
  | _ => []

end Hex

namespace Row

/-- What a line column stands for: no line of its own where it is a bar, and else a number. -/
def readMark? (mark : List Char) : Option (Option Nat) :=
  if mark = ['|'] then
    some none
  else
    (Decimal.digits? mark).map some

/-- The line and the instruction that a row shows, without a line where a bar is shown. -/
def read? (text : List Char) : Option (Option Nat × Instruction) := do
  let columns := (text.dropWhile (· ≠ ' ')).dropWhile (· = ' ')
  let line? ← readMark? (columns.takeWhile (· ≠ ' '))
  match decode (Hex.leadingBytes ((columns.dropWhile (· ≠ ' ')).drop 3)) with
  | .ok [i] => some (line?, i)
  | _ => none

end Row

namespace Program

/-- The pairs shown by rows of which the row before had the given line. -/
def readRows? (previous? : Option Nat) :
    List (List Char) → Option (List (Instruction × Nat))
  | [] => some []
  | text :: texts => do
      let (line?, i) ← Row.read? text
      let line ← line?.or previous?
      let pairs ← readRows? (some line) texts
      return (i, line) :: pairs

/-- The program of which a text is the listing. -/
def ofListing? (text : String) : Option Program :=
  (readRows? none (textLines text.toList)).map ofList

end Program

end ListingReader

end ArithMachine
