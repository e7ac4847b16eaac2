import ArithMachine.Decimal.Notation
import ArithMachine.Decimal.Shortest
import ArithMachine.Value.Basic

/-!
# Text of values

A finite value is written as the shortest decimal that reads back to it, behind
a sign when its sign bit is set.  Infinities are written `inf` and `-inf`, and
every NaN is written `NaN`, whatever its sign and payload.
-/

namespace ArithMachine

namespace Value

section ValueText

/-- The text of a magnitude word that is not a NaN. -/
def magnitudeText (word : Nat) : List Char :=
  if word = infinityWord then
    ['i', 'n', 'f']
  else if word = 0 then
    ['0', '.', '0']
  else
    (Decimal.shortest word).text

/-- What stands in front of the size of a value. -/
def signText (negative : Bool) : List Char :=
  if negative then ['-'] else []

/-- The characters of the text of a value. -/
def characters (v : Value) : List Char :=
  if v.isNaN then
    ['N', 'a', 'N']
  else
    signText v.negative ++ magnitudeText v.magnitude

/-- The text of a value. -/
def text (v : Value) : String :=
  String.ofList v.characters

/-- The magnitude word written by a text without sign. -/
def magnitudeOfText? : List Char → Option Nat
  | ['i', 'n', 'f'] => some infinityWord
  | cs => (Decimal.ofText? cs).map Decimal.nearestWord

/-- Reads the text of a value: `NaN`, or a size behind a sign that may be missing. -/
def ofText? (s : String) : Option Value :=
  match s.toList with
  | ['N', 'a', 'N'] => some nan
  | '-' :: cs => (magnitudeOfText? cs).map (ofParts true)
  | cs => (magnitudeOfText? cs).map (ofParts false)

end ValueText

end Value

end ArithMachine
