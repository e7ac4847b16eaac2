import ArithMachine.Proofs.Transcripts

/-!
# Replaying a log

The log of a run tells bytes: each opcode event the byte in place of a tag, and
each immediate event the four bytes of its operand.  `Transcript.told` puts them
together in the order of the events.

The bytes told are those that the run has taken in.  They stand at the front of
the bytes that were run, and a run over them alone takes the same course: it
carries out the same instructions and ends in the same way.  Of an operand that
is cut short nothing is told, but a run that finds none of it ends at the same
offset as one that finds a part of it.
-/

namespace ArithMachine

section Replays

/-- The bytes that a transcript tells. -/
def Transcript.told (t : Transcript) : List UInt8 :=
  t.events.flatMap Event.bytes

/-- The same state with other bytes left to read. -/
def State.withRest (s : State) (rest : List UInt8) : State :=
  ⟨⟨s.cursor.position, rest⟩, s.stack⟩

/-- The events of an instruction tell its wire form. -/
theorem flatMap_bytes_events
    (offset : Nat) (i : Instruction) :
    (i.events offset).flatMap Event.bytes = i.encode := by
  cases i with
  | immediate value => rfl
  | ret | negate | binary op => rfl

theorem flatMap_bytes_eventsFrom
    (offset : Nat) (is : List Instruction) :
    (eventsFrom offset is).flatMap Event.bytes = encode is := by
  induction is generalizing offset with
  | nil => rfl
  | cons i is ih =>
      rw [eventsFrom, List.flatMap_append, flatMap_bytes_events, ih,
        encode_cons]

namespace Ends

variable {s : State} {last : List Event} {answer : Answer}

theorem flatMap_bytes_isPrefix
    (h : Ends s last answer) :
    last.flatMap Event.bytes <+: s.cursor.rest := by
  cases h with
  | done => exact List.nil_prefix
  | @unknown byte rest hrest =>
      rw [hrest]
      exact List.prefix_append [byte] rest
  | @truncated rest hrest =>
      rw [hrest]
      exact List.prefix_append [Opcode.immediate.toByte] rest
  | stop hrest =>
      rw [hrest, flatMap_bytes_events]
      exact List.prefix_append _ _

/-- A run that finds no more than the bytes told at its end ends in the same way. -/
theorem replay
    (h : Ends s last answer) :
    Ends (s.withRest (last.flatMap Event.bytes)) last answer := by
  cases h with
  | done => exact .done rfl
  | unknown _ htag => exact .unknown rfl htag
  -- Nothing is told of the operand that is cut short, and nothing is also too short.
  | truncated => exact .truncated rfl (by decide)
  | @stop i _ _ _ hstops =>
      have hrest :
          (s.withRest ((i.events s.cursor.position).flatMap
              Event.bytes)).cursor.rest = i.encode ++ [] := by
        rw [List.append_nil]
        exact flatMap_bytes_events _ i
      exact .stop hrest hstops

end Ends

namespace Course

variable {s t : State} {is : List Instruction}
variable {last : List Event} {answer : Answer}

/-- The bytes told on a course are enough for the course. -/
theorem replay
    (h : Course s is t last answer) :
    Course (s.withRest (encode is ++ last.flatMap Event.bytes)) is
      (t.withRest (last.flatMap Event.bytes)) last answer where
  read := rfl
  position := h.position
  performed := h.performed
  ends := h.ends.replay

theorem told_transcript
    {config : Config} {bytes : List UInt8}
    (h : Course (.initial config bytes) is t last answer) :
    (Machine.transcript config bytes).told =
      encode is ++ last.flatMap Event.bytes := by
  rw [h.transcript_eq, Transcript.told, List.flatMap_append,
    flatMap_bytes_eventsFrom]

end Course

namespace Machine

variable {σ : Type}

/--
A run can be reproduced from its log.

The bytes that the log tells are a prefix of the bytes that were run.  A run over
this prefix under the same limit has the same events and the same answer, however
the run ended, and any observer is left with the same log.
-/
theorem transcript_replay
    (m : Machine σ) (bytes : List UInt8) (log : σ) :
    let told := (transcript m.config bytes).told
    told <+: bytes ∧
      transcript m.config told = transcript m.config bytes ∧
      m.tryExecute told log = m.tryExecute bytes log := by
  intro told
  obtain ⟨is, t, last, answer, hcourse⟩ :=
    exists_course_initial m.config bytes
  have htold : told = encode is ++ last.flatMap Event.bytes :=
    hcourse.told_transcript
  have hread : bytes = encode is ++ t.cursor.rest := hcourse.read
  have hreplay :
      Course (.initial m.config told) is
        (t.withRest (last.flatMap Event.bytes)) last answer := by
    rw [htold]
    exact hcourse.replay
  have hsame :
      transcript m.config told = transcript m.config bytes := by
    rw [hreplay.transcript_eq, hcourse.transcript_eq]
  refine ⟨?_, hsame, ?_⟩
  · rw [htold, hread, List.prefix_append_right_inj]
    exact hcourse.ends.flatMap_bytes_isPrefix
  · rw [tryExecute_eq_transcript, tryExecute_eq_transcript, hsame]

/-- Of a cut operand the log tells nothing, and the replay misses it at the same offset. -/
example :
    let bytes : List UInt8 := [2, 0, 0, 160, 64, 2, 7]
    (transcript ⟨1⟩ bytes).told = [2, 0, 0, 160, 64, 2] ∧
      (transcript ⟨1⟩ [2, 0, 0, 160, 64, 2]).answer =
        .error (.unexpectedEnd 6) := by
  cbv

end Machine

end Replays

end ArithMachine
