import ArithMachine.Proofs.Turns

/-!
# Transcripts of runs

The transcript of a run is what it reports together with its answer.

A run from a state on takes a course: it carries out a list of instructions,
which leads it to a state in which it ends.  There are four ways to end,
`Ends`: nothing is left to read, the next byte is no tag, the operand of an
immediate instruction is cut short, or the next instruction stops the run.  All
that a run reports can be read off its course, for any observer, and so can the
number of its turns.

Statements about two runs are proved by turning the course of the one into a
course of the other.
-/

namespace ArithMachine

section Transcripts

/-- What a run reports, and its answer. -/
@[ext] structure Transcript where
  events : List Event
  answer : Answer
deriving DecidableEq

/-- How a run ends in a state: what is reported there, and the answer. -/
inductive Ends (s : State) : List Event → Answer → Prop
  | done
      (hrest : s.cursor.rest = []) :
      Ends s [] (.error .missingReturn)
  | unknown
      {byte : UInt8} {rest : List UInt8}
      (hrest : s.cursor.rest = byte :: rest)
      (htag : Opcode.ofByte? byte = none) :
      Ends s [.opcode s.cursor.position byte]
        (.error (.unknownOpcode byte s.cursor.position))
  | truncated
      {rest : List UInt8}
      (hrest : s.cursor.rest = Opcode.immediate.toByte :: rest)
      (hshort : rest.length < 4) :
      Ends s [.opcode s.cursor.position Opcode.immediate.toByte]
        (.error (.unexpectedEnd (s.cursor.position + 1)))
  | stop
      {i : Instruction} {rest : List UInt8} {answer : Answer}
      (hrest : s.cursor.rest = i.encode ++ rest)
      (hstops : Stops s.stack.limit s.stack.values i answer) :
      Ends s (i.events s.cursor.position) answer

/-- A run from `s` on carries out the instructions and ends in `t`. -/
structure Course
    (s : State) (is : List Instruction) (t : State)
    (last : List Event) (answer : Answer) : Prop where
  read : s.cursor.rest = encode is ++ t.cursor.rest
  position :
    t.cursor.position = s.cursor.position + (encode is).length
  performed : performAll s.stack is = .ok t.stack
  ends : Ends t last answer

/-- A run that ends at once has nothing to carry out. -/
theorem Ends.course
    {s : State} {last : List Event} {answer : Answer}
    (h : Ends s last answer) :
    Course s [] s last answer :=
  ⟨rfl, rfl, rfl, h⟩

/-- An instruction that lets the run go on is the first of its course. -/
theorem Course.cons
    {s t : State} {i : Instruction} {is : List Instruction}
    {rest : List UInt8} {stack : Stack}
    {last : List Event} {answer : Answer}
    (hrest : s.cursor.rest = i.encode ++ rest)
    (hperform : i.perform s.stack = .ok stack)
    (h :
      Course ⟨⟨s.cursor.position + i.encodedLength, rest⟩, stack⟩
        is t last answer) :
    Course s (i :: is) t last answer where
  read := by
    rw [hrest, encode_cons, List.append_assoc, ← h.read]
  position := by
    rw [h.position]
    simp [Nat.add_assoc]
  performed :=
    performAll_cons_eq_ok_iff.mpr ⟨stack, hperform, h.performed⟩
  ends := h.ends

/-- Every run takes a course. -/
theorem exists_course
    {s : State}
    (hfits : s.stack.Fits) :
    ∃ (is : List Instruction) (t : State)
      (last : List Event) (answer : Answer),
      Course s is t last answer := by
  rcases s with ⟨⟨position, rest⟩, stack⟩
  -- The induction is on the number of bytes that are left to read.
  induction hlength : rest.length using Nat.strong_induction_on
    generalizing position rest stack with
  | h n ih =>
    cases front rest with
    | done => exact ⟨_, _, _, _, (Ends.done rfl).course⟩
    | unknown rest htag => exact ⟨_, _, _, _, (Ends.unknown rfl htag).course⟩
    | truncated hshort => exact ⟨_, _, _, _, (Ends.truncated rfl hshort).course⟩
    | instruction i rest =>
        rcases performs_or_stops stack.limit stack.values i with
          ⟨values, hperforms⟩ | ⟨answer, hstops⟩
        · have hperform :
              i.perform stack = .ok ⟨stack.limit, values⟩ :=
            Instruction.perform_of_performs hfits hperforms
          have hless : rest.length < n := by
            have hpos := i.encodedLength_pos
            simp only [List.length_append, Instruction.length_encode] at hlength
            omega
          obtain ⟨is, t, last, answer, hcourse⟩ :=
            ih rest.length hless ⟨stack.limit, values⟩
              (position + i.encodedLength) rest
              (Instruction.fits_of_perform hfits hperform).2 rfl
          exact ⟨_, _, _, _, hcourse.cons rfl hperform⟩
        · exact ⟨_, _, _, _, (Ends.stop rfl hstops).course⟩

namespace Machine

variable {σ : Type} {m : Machine σ}

theorem report_append
    (log : σ) (events more : List Event) :
    m.report log (events ++ more) = m.report (m.report log events) more :=
  List.foldl_append

end Machine

namespace Ends

variable {σ : Type} {s : State} {last : List Event} {answer : Answer}

/-- Where a run ends, it gives its answer and takes no further turn. -/
theorem run
    (h : Ends s last answer) (m : Machine σ) (log : σ) :
    m.run s log = (m.report log last, answer) ∧
      m.advance 1 s log = none := by
  rcases s with ⟨⟨position, rest⟩, ⟨limit, values⟩⟩
  cases h with
  | done hrest =>
      cases hrest
      exact ⟨Machine.run_done rfl,
        Machine.advance_fault 0 Cursor.readInstruction_done⟩
  | @unknown byte rest hrest htag =>
      cases hrest
      have hread :
          (Cursor.mk position (byte :: rest)).readInstruction =
            .error (.unknownOpcode byte position) :=
        Cursor.readInstruction_unknown htag
      exact ⟨Machine.run_fault (List.cons_ne_nil _ _) hread,
        Machine.advance_fault 0 hread⟩
  | @truncated rest hrest hshort =>
      cases hrest
      have hread :
          (Cursor.mk position
              (Opcode.immediate.toByte :: rest)).readInstruction =
            .error (.unexpectedEnd (position + 1)) :=
        Cursor.readInstruction_truncated hshort
      exact ⟨Machine.run_fault (List.cons_ne_nil _ _) hread,
        Machine.advance_fault 0 hread⟩
  | @stop i rest _ hrest hstops =>
      cases hrest
      have hread :
          (Cursor.mk position (i.encode ++ rest)).readInstruction =
            .ok (i, ⟨position + i.encodedLength, rest⟩) :=
        Cursor.readInstruction_encode i
      have hperform := Instruction.perform_of_stops hstops
      refine ⟨?_, ?_⟩
      · rw [Machine.run_instruction hread, hperform]
      · rw [Machine.advance_instruction 0 hread, hperform]

end Ends

namespace Course

variable {σ : Type} {s t : State} {is : List Instruction}
variable {last : List Event} {answer : Answer}

theorem carriesOut
    (h : Course s is t last answer) (m : Machine σ) (log : σ) :
    m.CarriesOut is s t log
      (m.report log (eventsFrom s.cursor.position is)) :=
  ⟨h.read, h.position, h.performed, rfl⟩

/-- A course takes one turn for each of its instructions, and another one ends it. -/
theorem advance
    (h : Course s is t last answer) (m : Machine σ) (log : σ) :
    m.advance is.length s log =
        some (m.report log (eventsFrom s.cursor.position is), t) ∧
      m.advance (is.length + 1) s log = none := by
  have hadvance := Machine.advance_of_carriesOut (h.carriesOut m log)
  refine ⟨hadvance, ?_⟩
  rw [Machine.advance_add hadvance]
  exact (h.ends.run m _).2

/-- A course tells what is reported and what is answered. -/
theorem run
    (h : Course s is t last answer) (m : Machine σ) (log : σ) :
    m.run s log =
      (m.report log (eventsFrom s.cursor.position is ++ last), answer) := by
  rw [Machine.run_of_advance (h.advance m log).1, (h.ends.run m _).1,
    Machine.report_append]

end Course

namespace Machine

variable {σ : Type}

/-- The machine that keeps the events of its runs. -/
def recording (config : Config) : Machine (Array Event) :=
  ⟨config, .recorder⟩

/-- The transcript of a run from a state on. -/
def transcriptFrom (config : Config) (s : State) : Transcript :=
  let (log, answer) := (recording config).run s #[]
  ⟨log.toList, answer⟩

/-- The transcript of running a byte string. -/
def transcript (config : Config) (bytes : List UInt8) : Transcript :=
  let (log, answer) := (recording config).tryExecute bytes #[]
  ⟨log.toList, answer⟩

/-- A recorder keeps what is reported. -/
theorem toList_report_recording
    (config : Config) (log : Array Event) (events : List Event) :
    ((recording config).report log events).toList =
      log.toList ++ events := by
  induction events generalizing log with
  | nil => exact (List.append_nil _).symm
  | cons event events ih =>
      rw [show (recording config).report log (event :: events) =
        (recording config).report (log.push event) events from rfl, ih]
      simp

end Machine

namespace Course

variable {s t : State} {is : List Instruction}
variable {last : List Event} {answer : Answer}

theorem transcriptFrom_eq
    (h : Course s is t last answer) (config : Config) :
    Machine.transcriptFrom config s =
      ⟨eventsFrom s.cursor.position is ++ last, answer⟩ := by
  rw [Machine.transcriptFrom, h.run]
  simp [Machine.toList_report_recording]

section Initial

variable {config : Config} {bytes : List UInt8}

theorem transcript_eq
    (h : Course (.initial config bytes) is t last answer) :
    Machine.transcript config bytes =
      ⟨eventsFrom 0 is ++ last, answer⟩ :=
  h.transcriptFrom_eq config

/-- Where a run over a byte string ends, the bytes from its position on are left. -/
theorem cursor_of_initial
    (h : Course (.initial config bytes) is t last answer) :
    t.cursor.position = (encode is).length ∧
      bytes.drop t.cursor.position = t.cursor.rest ∧
      t.cursor.position ≤ bytes.length := by
  have hread : bytes = encode is ++ t.cursor.rest := h.read
  have hposition : t.cursor.position = (encode is).length := by
    rw [h.position]
    exact Nat.zero_add _
  refine ⟨hposition, ?_, ?_⟩
  · rw [hread, hposition, List.drop_left]
  · rw [hread, hposition, List.length_append]
    exact Nat.le_add_right _ _

end Initial

end Course

/-- A byte string takes its course under every limit. -/
theorem exists_course_initial
    (config : Config) (bytes : List UInt8) :
    ∃ (is : List Instruction) (t : State)
      (last : List Event) (answer : Answer),
      Course (.initial config bytes) is t last answer :=
  exists_course (Stack.fits_empty config.maxStack)

namespace Machine

/-- What is recorded of a run depends on the state from which it starts, and not on the machine. -/
theorem transcript_eq_transcriptFrom
    (config config' : Config) (bytes : List UInt8) :
    transcript config bytes =
      transcriptFrom config' (.initial config bytes) := by
  obtain ⟨is, t, last, answer, hcourse⟩ :=
    exists_course_initial config bytes
  rw [hcourse.transcript_eq, hcourse.transcriptFrom_eq]
  rfl

/-- What is recorded from a state that was reached comes behind what was recorded before. -/
theorem transcriptFrom_of_advance
    {config : Config} {turns : Nat} {s t : State} {log : Array Event}
    (hfits : s.stack.Fits)
    (h : (recording config).advance turns s #[] = some (log, t)) :
    transcriptFrom config s =
      ⟨log.toList ++ (transcriptFrom config t).events,
        (transcriptFrom config t).answer⟩ := by
  obtain ⟨is, u, last, answer, hcourse⟩ :=
    exists_course (fits_of_advance hfits h).2
  rw [hcourse.transcriptFrom_eq, transcriptFrom, run_of_advance h,
    hcourse.run]
  simp only [toList_report_recording]

/-- Any observer sees the transcript, and the answer does not depend on it. -/
theorem tryExecute_eq_transcript
    {σ : Type} (m : Machine σ) (bytes : List UInt8) (log : σ) :
    m.tryExecute bytes log =
      (m.report log (transcript m.config bytes).events,
        (transcript m.config bytes).answer) := by
  obtain ⟨is, t, last, answer, hcourse⟩ :=
    exists_course_initial m.config bytes
  rw [hcourse.transcript_eq]
  exact hcourse.run m log

end Machine

end Transcripts

end ArithMachine
