import ArithMachine.Proofs.Transcripts

/-!
# Runs over concatenated bytes

What a run has read so far does not depend on the bytes behind it.  An answer is
therefore final unless the run came to the end of its bytes: more bytes behind
them do not change the transcript, and neither does cutting them off.

A run that has come to the end without a return has left a stack.  On a
concatenation the run goes on from that stack as it would over the second part
alone, with all offsets moved by the length of the first part.
-/

namespace ArithMachine

section Concatenation

/-- The answers that do not stem from the end of the bytes. -/
def Answer.Settled : Answer → Prop
  | .ok _ => True
  | .error (.unknownOpcode _ _) => True
  | .error (.stackUnderflow _) => True
  | .error (.stackOverflow _) => True
  | .error (.unexpectedEnd _) => False
  | .error .missingReturn => False

/-- The same transcript with `n` more bytes before the ones that were run. -/
def Transcript.shift (n : Nat) (t : Transcript) : Transcript :=
  ⟨t.events.map (.shift n), t.answer.mapError (.shift n)⟩

namespace State

/-- The same state with more bytes at the end. -/
def append (s : State) (bytes : List UInt8) : State :=
  ⟨⟨s.cursor.position, s.cursor.rest ++ bytes⟩, s.stack⟩

/-- The same state with `n` more bytes before the ones that were read. -/
def shift (n : Nat) (s : State) : State :=
  ⟨⟨n + s.cursor.position, s.cursor.rest⟩, s.stack⟩

end State

theorem Answer.settled_or
    (answer : Answer) :
    answer.Settled ∨ answer = .error .missingReturn ∨
      ∃ offset, answer = .error (.unexpectedEnd offset) := by
  rcases answer with fault | value?
  · cases fault with
    | unknownOpcode | stackUnderflow | stackOverflow => exact Or.inl trivial
    | missingReturn => exact Or.inr (Or.inl rfl)
    | unexpectedEnd offset => exact Or.inr (Or.inr ⟨offset, rfl⟩)
  · exact Or.inl trivial

theorem Stops.settled
    {limit : Nat} {values : List Value} {i : Instruction}
    {answer : Answer}
    (h : Stops limit values i answer) :
    answer.Settled := by
  cases h with
  | ret | overflow | negate | binary => trivial

/-- No offset occurs in what an instruction answers. -/
theorem Stops.mapError_shift
    {limit : Nat} {values : List Value} {i : Instruction}
    {answer : Answer}
    (h : Stops limit values i answer) (n : Nat) :
    answer.mapError (.shift n) = answer := by
  cases h with
  | ret | overflow | negate | binary => rfl

section Events

theorem map_shift_events
    (n offset : Nat) (i : Instruction) :
    (i.events offset).map (.shift n) = i.events (n + offset) := by
  cases i with
  | immediate | ret | negate | binary => rfl

theorem map_shift_eventsFrom
    (n offset : Nat) (is : List Instruction) :
    (eventsFrom offset is).map (.shift n) = eventsFrom (n + offset) is := by
  induction is generalizing offset with
  | nil => rfl
  | cons i is ih =>
      rw [eventsFrom, List.map_append, map_shift_events, ih, eventsFrom,
        Nat.add_assoc]

end Events

namespace Ends

variable {s : State} {last : List Event} {answer : Answer}

/-- A run that ends for another reason than the end of its bytes does not look behind them. -/
theorem append
    (h : Ends s last answer)
    (hsettled : answer.Settled)
    (bytes : List UInt8) :
    Ends (s.append bytes) last answer := by
  cases h with
  | done => exact hsettled.elim
  | truncated => exact hsettled.elim
  | @unknown byte rest hrest htag =>
      have happend :
          (s.append bytes).cursor.rest = byte :: (rest ++ bytes) := by
        rw [State.append, hrest, List.cons_append]
      exact .unknown happend htag
  | @stop i rest _ hrest hstops =>
      have happend :
          (s.append bytes).cursor.rest = i.encode ++ (rest ++ bytes) := by
        rw [State.append, hrest, List.append_assoc]
      exact .stop happend hstops

theorem shift
    (h : Ends s last answer) (n : Nat) :
    Ends (s.shift n) (last.map (.shift n)) (answer.mapError (.shift n)) := by
  cases h with
  | done hrest => exact .done hrest
  | unknown hrest htag => exact .unknown hrest htag
  | truncated hrest hshort => exact .truncated hrest hshort
  | stop hrest hstops =>
      rw [map_shift_events, hstops.mapError_shift]
      exact .stop hrest hstops

theorem rest_of_missingReturn
    (h : Ends s last (.error .missingReturn)) :
    s.cursor.rest = [] := by
  cases h with
  | done hrest => exact hrest
  | stop _ hstops => exact hstops.settled.elim

end Ends

namespace Course

variable {s t : State} {is : List Instruction}
variable {last : List Event} {answer : Answer}

theorem append
    (h : Course s is t last answer)
    (hsettled : answer.Settled)
    (bytes : List UInt8) :
    Course (s.append bytes) is (t.append bytes) last answer where
  read := by
    rw [State.append, State.append, h.read, List.append_assoc]
  position := h.position
  performed := h.performed
  ends := h.ends.append hsettled bytes

theorem shift
    (h : Course s is t last answer) (n : Nat) :
    Course (s.shift n) is (t.shift n)
      (last.map (.shift n)) (answer.mapError (.shift n)) where
  read := h.read
  position := by
    rw [State.shift, State.shift, h.position, Nat.add_assoc]
  performed := h.performed
  ends := h.ends.shift n

end Course

namespace Machine

variable {config : Config}

/-- A settled answer stands, whatever bytes follow. -/
theorem transcript_append_of_settled
    {bytes : List UInt8}
    (h : (transcript config bytes).answer.Settled)
    (more : List UInt8) :
    transcript config (bytes ++ more) = transcript config bytes := by
  obtain ⟨is, t, last, answer, hcourse⟩ :=
    exists_course_initial config bytes
  rw [hcourse.transcript_eq] at h
  have hmore :
      Course (.initial config (bytes ++ more)) is (t.append more)
        last answer :=
    hcourse.append h more
  rw [hcourse.transcript_eq, hmore.transcript_eq]

/-- Turns do not depend on the bytes behind those that they read. -/
theorem advance_append
    {σ : Type} {m : Machine σ} {turns : Nat} {s t : State} {log log' : σ}
    (h : m.advance turns s log = some (log', t))
    (more : List UInt8) :
    m.advance turns (s.append more) log = some (log', t.append more) := by
  obtain ⟨is, hlength, hread, hposition, hperformed, hreported⟩ :=
    advance_eq_some_iff.mp h
  refine
    advance_eq_some_iff.mpr
      ⟨is, hlength, ?_, hposition, hperformed, hreported⟩
  rw [State.append, State.append, hread, List.append_assoc]

/-- Offsets are counted from where the bytes start. -/
theorem transcriptFrom_shift
    {s : State}
    (hfits : s.stack.Fits) (n : Nat) :
    transcriptFrom config (s.shift n) =
      (transcriptFrom config s).shift n := by
  obtain ⟨is, t, last, answer, hcourse⟩ := exists_course hfits
  rw [hcourse.transcriptFrom_eq, (hcourse.shift n).transcriptFrom_eq,
    Transcript.shift, List.map_append, map_shift_eventsFrom]
  rfl

section Unfinished

variable {bytes : List UInt8} {turns : Nat} {log : Array Event} {s : State}

/-- A run that misses a return comes to the end of its bytes. -/
theorem exists_advance_of_missingReturn
    (h : (transcript config bytes).answer = .error .missingReturn) :
    ∃ (turns : Nat) (log : Array Event) (s : State),
      (recording config).advance turns (.initial config bytes) #[] =
          some (log, s) ∧
        s.cursor.rest = [] := by
  obtain ⟨is, t, last, answer, hcourse⟩ :=
    exists_course_initial config bytes
  rw [hcourse.transcript_eq] at h
  obtain rfl : answer = .error .missingReturn := h
  exact
    ⟨_, _, t, (hcourse.advance (recording config) #[]).1,
      hcourse.ends.rest_of_missingReturn⟩

theorem position_of_advance
    (h :
      (recording config).advance turns (.initial config bytes) #[] =
        some (log, s))
    (hrest : s.cursor.rest = []) :
    s.cursor.position = bytes.length := by
  obtain ⟨_, hread, hposition, _, _⟩ := carriesOut_executed h
  rw [hrest, List.append_nil] at hread
  rw [hposition, ← hread]
  exact Nat.zero_add _

/-- A run that has come to the end of its bytes misses a return, and has recorded what it did. -/
theorem transcript_of_advance
    (h :
      (recording config).advance turns (.initial config bytes) #[] =
        some (log, s))
    (hrest : s.cursor.rest = []) :
    transcript config bytes = ⟨log.toList, .error .missingReturn⟩ := by
  rw [transcript_eq_transcriptFrom config config,
    transcriptFrom_of_advance (Stack.fits_empty config.maxStack) h,
    (Ends.done hrest).course.transcriptFrom_eq]
  simp [eventsFrom]

/-- It goes on from the stack that it has left, if more bytes follow. -/
theorem transcript_append_of_advance
    (h :
      (recording config).advance turns (.initial config bytes) #[] =
        some (log, s))
    (hrest : s.cursor.rest = [])
    (more : List UInt8) :
    let behind :=
      (transcriptFrom config ⟨.ofBytes more, s.stack⟩).shift bytes.length
    transcript config (bytes ++ more) =
      ⟨(transcript config bytes).events ++ behind.events,
        behind.answer⟩ := by
  intro behind
  obtain ⟨_, hfits⟩ := fits_of_advance_initial h
  have hwhole :
      (recording config).advance turns
          (.initial config (bytes ++ more)) #[] =
        some (log, s.append more) :=
    advance_append h more
  have hbehind :
      s.append more =
        (State.mk (.ofBytes more) s.stack).shift bytes.length := by
    rw [State.append, hrest, position_of_advance h hrest]
    rfl
  have hstart : (State.mk (.ofBytes more) s.stack).stack.Fits := hfits
  have hshift :
      transcriptFrom config
          ((State.mk (.ofBytes more) s.stack).shift bytes.length) =
        behind :=
    transcriptFrom_shift hstart bytes.length
  rw [transcript_eq_transcriptFrom config config,
    transcriptFrom_of_advance (Stack.fits_empty config.maxStack) hwhole,
    hbehind, hshift, transcript_of_advance h hrest]

end Unfinished

/--
Running a concatenation is running the first part and then, if that has left the
run without an answer, the second part.

A settled answer stands with all that was recorded, whatever bytes follow.  Cut
off anywhere, a byte string has the same transcript, or its run comes to the end
of its bytes.  A run that misses a return has left a stack, and over more bytes it
goes on from that stack under the same limit, with offsets moved by the length of
the bytes before.
-/
theorem transcript_concatenation
    (config : Config) :
    (∀ a b : List UInt8,
      (transcript config a).answer.Settled →
      transcript config (a ++ b) = transcript config a) ∧
    (∀ (bytes : List UInt8) (n : Nat),
      let cut := transcript config (bytes.take n)
      cut = transcript config bytes ∨
        cut.answer = .error .missingReturn ∨
        ∃ offset, cut.answer = .error (.unexpectedEnd offset)) ∧
    (∀ a : List UInt8,
      (transcript config a).answer = .error .missingReturn →
      ∃ (turns : Nat) (log : Array Event) (s : State),
        (recording config).advance turns (.initial config a) #[] =
            some (log, s) ∧
          s.cursor.rest = []) ∧
    (∀ (a : List UInt8) (turns : Nat) (log : Array Event) (s : State),
      (recording config).advance turns (.initial config a) #[] =
        some (log, s) →
      s.cursor.rest = [] →
      (transcript config a).answer = .error .missingReturn ∧
      s.stack.limit = config.maxStack ∧
      ∀ b : List UInt8,
        let behind :=
          (transcriptFrom config ⟨.ofBytes b, s.stack⟩).shift a.length
        transcript config (a ++ b) =
          ⟨(transcript config a).events ++ behind.events,
            behind.answer⟩) := by
  refine ⟨?_, ?_, ?_, ?_⟩
  · intro a b h
    exact transcript_append_of_settled h b
  · intro bytes n cut
    rcases cut.answer.settled_or with hsettled | hend
    · have hwhole :=
        transcript_append_of_settled hsettled (bytes.drop n)
      rw [List.take_append_drop] at hwhole
      exact Or.inl hwhole.symm
    · exact Or.inr hend
  · intro a h
    exact exists_advance_of_missingReturn h
  · intro a turns log s h hrest
    refine ⟨?_, (fits_of_advance_initial h).1, ?_⟩
    · rw [transcript_of_advance h hrest]
    · intro b
      exact transcript_append_of_advance h hrest b

/-- An overflow in front of junk, and a value whose negation stands in the second part. -/
theorem transcript_concatenation_negation :
    let config : Config := ⟨1⟩
    let full : List UInt8 := [2, 0, 0, 128, 63, 2, 0, 0, 160, 64]
    let operand : List UInt8 := [2, 0, 0, 128, 63]
    transcript config (full ++ [9, 9]) = transcript config full ∧
      (transcript config operand).answer = .error .missingReturn ∧
      (∃ (turns : Nat) (log : Array Event) (s : State),
        (recording config).advance turns (.initial config operand) #[] =
            some (log, s) ∧
          s.cursor.rest = []) ∧
      transcript config (operand ++ [3, 1]) =
        ⟨(transcript config operand).events ++
            [.opcode 5 3, .opcode 6 1],
          .ok (some ⟨0xbf800000⟩)⟩ ∧
      transcript config (operand ++ [3, 9]) =
        ⟨(transcript config operand).events ++
            [.opcode 5 3, .opcode 6 9],
          .error (.unknownOpcode 9 6)⟩ := by
  intro config full operand
  obtain ⟨hsettled, _, hmissing, hbehind⟩ := transcript_concatenation config
  let one : Stack := ⟨1, [⟨0x3f800000⟩]⟩
  have hreached :
      (recording config).advance 1 (.initial config operand) #[] =
        some (_, ⟨⟨5, []⟩, one⟩) := rfl
  obtain ⟨hanswer, _, happend⟩ := hbehind operand 1 _ _ hreached rfl
  refine ⟨?_, hanswer, hmissing operand hanswer, ?_, ?_⟩
  · refine hsettled full [9, 9] ?_
    have hfull :
        (transcript config full).answer = .error (.stackOverflow 1) := by cbv
    rw [hfull]
    trivial
  · have hreturn :
        transcriptFrom config ⟨.ofBytes [3, 1], one⟩ =
          ⟨[.opcode 0 3, .opcode 1 1], .ok (some ⟨0xbf800000⟩)⟩ := by cbv
    rw [happend [3, 1], hreturn]
    rfl
  · have hunknown :
        transcriptFrom config ⟨.ofBytes [3, 9], one⟩ =
          ⟨[.opcode 0 3, .opcode 1 9], .error (.unknownOpcode 9 1)⟩ := by cbv
    rw [happend [3, 9], hunknown]
    rfl

end Machine

end Concatenation

end ArithMachine
