import ArithMachine.Cursor
import ArithMachine.Cursor.Indexed
import ArithMachine.Decimal.Basic
import ArithMachine.Decimal.Notation
import ArithMachine.Decimal.Shortest
import ArithMachine.Decoding
import ArithMachine.Expr
import ArithMachine.Fault
import ArithMachine.Hex
import ArithMachine.Instruction
import ArithMachine.Machine.Basic
import ArithMachine.Machine.Progress
import ArithMachine.Machine.Scan
import ArithMachine.Machine.Session
import ArithMachine.Observer
import ArithMachine.Opcode
import ArithMachine.Outcome
import ArithMachine.Program.Basic
import ArithMachine.Program.Evaluation
import ArithMachine.Program.Listing
import ArithMachine.Program.Reading
import ArithMachine.Proofs.Boundaries
import ArithMachine.Proofs.Comparison
import ArithMachine.Proofs.Concatenation
import ArithMachine.Proofs.Cursors
import ArithMachine.Proofs.Defects
import ArithMachine.Proofs.Forest
import ArithMachine.Proofs.Invariants
import ArithMachine.Proofs.Joining
import ArithMachine.Proofs.Limits
import ArithMachine.Proofs.Listings
import ArithMachine.Proofs.NumericEquality
import ArithMachine.Proofs.Paths
import ArithMachine.Proofs.Performing
import ArithMachine.Proofs.Postfix
import ArithMachine.Proofs.Reading
import ArithMachine.Proofs.Refinement
import ArithMachine.Proofs.Replays
import ArithMachine.Proofs.Scanning
import ArithMachine.Proofs.Texts
import ArithMachine.Proofs.Transcripts
import ArithMachine.Proofs.Turns
import ArithMachine.Proofs.WireFormat
import ArithMachine.Stack
import ArithMachine.Value.Arithmetic
import ArithMachine.Value.Basic
import ArithMachine.Value.Operand
import ArithMachine.Value.Order
import ArithMachine.Value.Rounding
import ArithMachine.Value.Text
import ArithMachine.Proofs.Histories
import ArithMachine.Proofs.Sessions
import ArithMachine.Proofs.Building
import ArithMachine.Proofs.Notation
import ArithMachine.Proofs.ShortestText
