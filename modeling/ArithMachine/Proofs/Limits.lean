import ArithMachine.Proofs.Transcripts

/-!
# The limit of the stack

The limit has one effect only: a push that would take the stack above it ends the
run.  As long as a run stays within another limit, it takes the same turns under
that one, so that two limits are told apart by the height of the stack alone.

Each byte string therefore has a peak, the greatest height that its run reaches
under the default limit.  Limits from the peak on make no difference, and a lower
one is exceeded by the first push that takes the stack above it, up to which the
run is the same.  A value on the stack has cost five bytes, so that a byte string
would have to be very long to reach the default limit.
-/

namespace ArithMachine

section Limits

/-- The same state on a stack with another limit. -/
def State.within (limit : Nat) (s : State) : State :=
  ⟨s.cursor, ⟨limit, s.stack.values⟩⟩

@[simp] theorem State.within_initial
    (config : Config) (limit : Nat) (bytes : List UInt8) :
    (State.initial config bytes).within limit = .initial ⟨limit⟩ bytes :=
  rfl

/-- An instruction does the same under any limit that has room for what it leaves. -/
theorem Performs.of_length_le
    {limit limit' : Nat} {values values' : List Value} {i : Instruction}
    (h : Performs limit values i values')
    (hroom : values'.length ≤ limit') :
    Performs limit' values i values' := by
  cases h with
  | immediate => exact .immediate hroom
  | negate => exact .negate
  | binary => exact .binary

/-- Only an immediate takes the stack to a new height, and it does so by one value. -/
theorem Performs.push_of_lt
    {limit height : Nat} {values values' : List Value} {i : Instruction}
    (h : Performs limit values i values')
    (hbefore : values.length ≤ height)
    (hafter : height < values'.length) :
    ∃ value : Value,
      i = .immediate value ∧ values' = value :: values ∧
        values.length = height := by
  cases h with
  | @immediate value _ _ =>
      rw [List.length_cons] at hafter
      exact ⟨value, rfl, rfl, by omega⟩
  | negate =>
      simp only [List.length_cons] at hbefore hafter
      omega
  | binary =>
      simp only [List.length_cons] at hbefore hafter
      omega

/-- A value that an instruction adds to the stack has taken five bytes. -/
theorem Performs.five_mul_length_le
    {limit : Nat} {values values' : List Value} {i : Instruction}
    (h : Performs limit values i values') :
    5 * values'.length ≤ 5 * values.length + i.encodedLength := by
  cases h with
  | immediate => exact Nat.le_refl _
  | negate => exact Nat.le_add_right _ _
  | binary =>
      simp only [List.length_cons]
      omega

theorem five_mul_height_le
    {limit : Nat} {s : Stack} {is : List Instruction}
    (h : performAll (.empty limit) is = .ok s) :
    5 * s.height ≤ (encode is).length := by
  refine
    performAll_induction
      (P := fun is s => 5 * s.height ≤ (encode is).length)
      (Stack.fits_empty limit) (Nat.le_refl _) ?_ h
  intro before i u v hbefore _ hperforms
  have hlength := hperforms.five_mul_length_le
  have hencode :
      (encode (before ++ [i])).length =
        (encode before).length + i.encodedLength := by
    simp
  rw [hencode]
  exact hlength.trans (Nat.add_le_add_right hbefore _)

/-- A run ends in the same way under another limit, unless it has exceeded its own. -/
theorem Ends.within
    {s : State} {last : List Event} {answer : Answer}
    (h : Ends s last answer)
    (hne : answer ≠ .error (.stackOverflow s.stack.limit))
    (limit : Nat) :
    Ends (s.within limit) last answer := by
  cases h with
  | done hrest => exact .done hrest
  | unknown hrest htag => exact .unknown hrest htag
  | truncated hrest hshort => exact .truncated hrest hshort
  | stop hrest hstops =>
      refine .stop hrest ?_
      generalize hvalues : s.stack.values = values at hstops
      cases hstops with
      | ret => exact hvalues ▸ .ret
      | overflow => exact absurd rfl hne
      | negate => exact hvalues ▸ .negate
      | binary hshort => exact hvalues ▸ .binary hshort

/-- A run overflows its stack only where it has filled it. -/
theorem Ends.full_of_stackOverflow
    {s : State} {last : List Event} {limit : Nat}
    (h : Ends s last (.error (.stackOverflow limit))) :
    limit = s.stack.limit ∧ s.stack.limit ≤ s.stack.height := by
  rcases s with ⟨cursor, ⟨bound, values⟩⟩
  cases h with
  | stop hrest hstops =>
      cases hstops with
      | overflow hfull => exact ⟨rfl, hfull⟩

namespace Machine

variable {σ : Type} {m : Machine σ}

/-- The heights of the stack in the states that a run reaches. -/
def heights (m : Machine σ) (s : State) (log : σ) : Set Nat :=
  {height | ∃ (turns : Nat) (log' : σ) (t : State),
    m.advance turns s log = some (log', t) ∧ t.stack.height = height}

/-- In none of its first turns does a run take the stack above a height. -/
def StaysWithin
    (m : Machine σ) (height turns : Nat) (s : State) (log : σ) : Prop :=
  ∀ k ≤ turns, ∀ (log' : σ) (t : State),
    m.advance k s log = some (log', t) → t.stack.height ≤ height

section Turns

variable {s t : State} {log log' : σ} {turns : Nat}

theorem advance_next
    {i : Instruction} {behind : Cursor} {stack : Stack}
    (hread : s.cursor.readInstruction = .ok (i, behind))
    (hperform : i.perform s.stack = .ok stack) :
    m.advance (turns + 1) s log =
      m.advance turns ⟨behind, stack⟩
        (m.report log (i.events s.cursor.position)) := by
  rw [advance_instruction turns hread, hperform]

/-- A run that stays within another limit takes the same turns under it. -/
theorem advance_within
    {limit : Nat}
    (hfits : s.stack.Fits)
    (hlow : m.StaysWithin limit turns s log)
    (h : m.advance turns s log = some (log', t)) :
    m.advance turns (s.within limit) log =
      some (log', t.within limit) := by
  induction turns generalizing s log with
  | zero =>
      cases h
      rfl
  | succ turns ih =>
      obtain ⟨i, behind, stack, hread, hperform, hbehind⟩ :=
        of_advance_succ h
      obtain ⟨hlimit, hperforms⟩ :=
        (Instruction.perform_eq_ok_iff hfits).mp hperform
      have hbefore : s.stack.height ≤ limit :=
        hlow 0 (Nat.zero_le _) log s rfl
      have hafter : stack.height ≤ limit := by
        refine
          hlow 1 (Nat.le_add_left 1 turns)
            (m.report log (i.events s.cursor.position)) ⟨behind, stack⟩ ?_
        rw [advance_next hread hperform]
        rfl
      have hperform' :
          i.perform (s.within limit).stack = .ok ⟨limit, stack.values⟩ :=
        Instruction.perform_of_performs hbefore
          (hperforms.of_length_le hafter)
      have hread' :
          (s.within limit).cursor.readInstruction = .ok (i, behind) := hread
      rw [advance_next hread' hperform']
      refine ih (Instruction.fits_of_perform hfits hperform).2 ?_ hbehind
      intro k hk log₁ u hu
      refine hlow (k + 1) (Nat.succ_le_succ hk) log₁ u ?_
      rwa [advance_next hread hperform]

/-- What the last of several turns has done. -/
theorem of_advance_succ_last
    (h : m.advance (turns + 1) s log = some (log', t)) :
    ∃ (log₁ : σ) (u : State) (i : Instruction),
      m.advance turns s log = some (log₁, u) ∧
      u.cursor.readInstruction = .ok (i, t.cursor) ∧
      i.perform u.stack = .ok t.stack ∧
      log' = m.report log₁ (i.events u.cursor.position) := by
  induction turns generalizing s log with
  | zero =>
      obtain ⟨i, behind, stack, hread, hperform, hbehind⟩ :=
        of_advance_succ h
      cases hbehind
      exact ⟨log, s, i, rfl, hread, hperform, rfl⟩
  | succ turns ih =>
      obtain ⟨i, behind, stack, hread, hperform, hbehind⟩ :=
        of_advance_succ h
      obtain ⟨log₁, u, j, hu, hlast⟩ := ih hbehind
      refine ⟨log₁, u, j, ?_, hlast⟩
      rwa [advance_next hread hperform]

/-- The first turn that takes the stack above a height pushes an immediate on exactly that height. -/
theorem exists_first_push
    {height : Nat}
    (hfits : s.stack.Fits)
    (hstart : s.stack.height ≤ height)
    (h : m.advance turns s log = some (log', t))
    (habove : height < t.stack.height) :
    ∃ (k : Nat) (log₁ : σ) (u v : State) (value : Value),
      m.advance k s log = some (log₁, u) ∧
      m.StaysWithin height k s log ∧
      u.stack.height = height ∧
      u.cursor.readInstruction = .ok (.immediate value, v.cursor) ∧
      v.stack.values = value :: u.stack.values ∧
      m.advance (k + 1) s log =
        some
          (m.report log₁
            ((Instruction.immediate value).events u.cursor.position), v) := by
  classical
  have hexists :
      ∃ n, ∃ (log₁ : σ) (u : State),
        m.advance n s log = some (log₁, u) ∧ height < u.stack.height :=
    ⟨turns, log', t, h, habove⟩
  obtain ⟨log₂, v, hv, hvabove⟩ := Nat.find_spec hexists
  have hlow (n : Nat) (hn : n < Nat.find hexists) (log₁ : σ) (u : State)
      (hu : m.advance n s log = some (log₁, u)) :
      u.stack.height ≤ height := by
    refine Nat.le_of_not_lt ?_
    intro hlt
    exact Nat.find_min hexists hn ⟨log₁, u, hu, hlt⟩
  generalize Nat.find hexists = n at hv hlow
  cases n with
  | zero =>
      cases hv
      exact absurd hstart (Nat.not_le_of_lt hvabove)
  | succ k =>
      obtain ⟨log₁, u, i, hu, hread, hperform, rfl⟩ :=
        of_advance_succ_last hv
      have hbefore := hlow k (Nat.lt_succ_self k) log₁ u hu
      obtain ⟨_, huFits⟩ := fits_of_advance hfits hu
      obtain ⟨_, hperforms⟩ :=
        (Instruction.perform_eq_ok_iff huFits).mp hperform
      obtain ⟨value, rfl, hvalues, hheight⟩ :=
        hperforms.push_of_lt hbefore hvabove
      refine ⟨k, log₁, u, v, value, hu, ?_, hheight, hread, hvalues, hv⟩
      intro j hj
      exact hlow j (Nat.lt_succ_of_le hj)

/-- A run that stays within another limit and does not exceed its own is the same under both. -/
theorem run_within
    {limit : Nat}
    (hfits : s.stack.Fits)
    (hlow : ∀ turns, m.StaysWithin limit turns s log)
    (hne : (m.run s log).2 ≠ .error (.stackOverflow s.stack.limit)) :
    m.run (s.within limit) log = m.run s log := by
  obtain ⟨is, t, last, answer, hcourse⟩ := exists_course hfits
  obtain ⟨hadvance, _⟩ := hcourse.advance m log
  obtain ⟨hlimit, _⟩ := fits_of_advance hfits hadvance
  have hrun := hcourse.run m log
  rw [hrun, ← hlimit] at hne
  rw [run_of_advance (advance_within hfits (hlow _) hadvance),
    ((hcourse.ends.within hne limit).run m _).1, hrun, report_append]

end Turns

section Transcripts

variable {config : Config} {bytes : List UInt8}

theorem transcript_within
    {limit : Nat}
    (hlow :
      ∀ turns, (recording config).StaysWithin limit turns
        (.initial config bytes) #[])
    (hne :
      (transcript config bytes).answer ≠
        .error (.stackOverflow config.maxStack)) :
    transcript ⟨limit⟩ bytes = transcript config bytes := by
  have hrun := run_within (Stack.fits_empty config.maxStack) hlow hne
  rw [transcript_eq_transcriptFrom ⟨limit⟩ config, transcriptFrom]
  exact congrArg (fun r => Transcript.mk r.1.toList r.2) hrun

/-- A transcript with an overflow names the limit, and its run has come to a full stack. -/
theorem full_of_transcript
    {limit : Nat}
    (h : (transcript config bytes).answer = .error (.stackOverflow limit)) :
    limit = config.maxStack ∧
      ∃ (turns : Nat) (log : Array Event) (s : State),
        (recording config).advance turns (.initial config bytes) #[] =
            some (log, s) ∧
          config.maxStack ≤ s.stack.height := by
  obtain ⟨is, t, last, answer, hcourse⟩ :=
    exists_course_initial config bytes
  obtain ⟨hadvance, _⟩ := hcourse.advance (recording config) #[]
  obtain ⟨hlimit, _⟩ := fits_of_advance_initial hadvance
  rw [hcourse.transcript_eq] at h
  have hends := hcourse.ends
  rw [show answer = _ from h] at hends
  obtain ⟨hname, hfull⟩ := hends.full_of_stackOverflow
  rw [hlimit] at hname hfull
  exact ⟨hname, _, _, t, hadvance, hfull⟩

theorem five_mul_height_le_of_advance
    {turns : Nat} {log : Array Event} {s : State}
    (h :
      (recording config).advance turns (.initial config bytes) #[] =
        some (log, s)) :
    5 * s.stack.height ≤ bytes.length := by
  obtain ⟨_, hcarries⟩ := carriesOut_executed h
  have hheight := five_mul_height_le hcarries.performed
  have hread := congrArg List.length hcarries.read
  rw [List.length_append] at hread
  have hbytes :
      (State.initial config bytes).cursor.rest.length = bytes.length := rfl
  omega

theorem exists_peak
    (config : Config) (bytes : List UInt8) :
    ∃ peak,
      IsGreatest
        ((recording config).heights (.initial config bytes) #[]) peak ∧
      5 * peak ≤ bytes.length := by
  let heights := (recording config).heights (.initial config bytes) #[]
  have hnonempty : heights.Nonempty :=
    ⟨0, 0, #[], .initial config bytes, rfl, rfl⟩
  have hbounded : BddAbove heights := by
    refine ⟨bytes.length, ?_⟩
    rintro height ⟨turns, log, s, h, rfl⟩
    have hheight := five_mul_height_le_of_advance h
    omega
  have hmem := Nat.sSup_mem hnonempty hbounded
  refine ⟨sSup heights, ⟨hmem, fun _ h => le_csSup hbounded h⟩, ?_⟩
  obtain ⟨turns, log, s, h, hheight⟩ := hmem
  rw [← hheight]
  exact five_mul_height_le_of_advance h

/-- A run that rises above a lower limit overflows there, at the first push above that limit. -/
theorem transcript_of_exceeded
    {limit turns : Nat} {log : Array Event} {t : State}
    (h :
      (recording config).advance turns (.initial config bytes) #[] =
        some (log, t))
    (habove : limit < t.stack.height) :
    ∃ (k : Nat) (log₁ : Array Event) (s u : State) (value : Value),
      (recording config).advance k (.initial config bytes) #[] =
          some (log₁, s) ∧
      (recording config).StaysWithin limit k (.initial config bytes) #[] ∧
      s.stack.height = limit ∧
      (recording config).advance (k + 1) (.initial config bytes) #[] =
          some ((transcript ⟨limit⟩ bytes).events.toArray, u) ∧
      u.stack.values = value :: s.stack.values ∧
      (transcript ⟨limit⟩ bytes).events =
        log₁.toList ++
          (Instruction.immediate value).events s.cursor.position ∧
      (transcript ⟨limit⟩ bytes).answer = .error (.stackOverflow limit) := by
  have hfits := Stack.fits_empty config.maxStack
  obtain ⟨k, log₁, s, u, value, hs, hlow, hheight, hread, hvalues, hu⟩ :=
    exists_first_push hfits (Nat.zero_le limit) h habove
  obtain ⟨hrest, _⟩ := Cursor.readInstruction_eq_ok_iff.mp hread
  have hwithin := advance_within hfits hlow hs
  rw [State.within_initial] at hwithin
  have hends :
      Ends (s.within limit)
        ((Instruction.immediate value).events s.cursor.position)
        (.error (.stackOverflow limit)) :=
    .stop hrest (.overflow (Nat.le_of_eq hheight.symm))
  have htranscript :
      transcript ⟨limit⟩ bytes =
        ⟨log₁.toList ++
            (Instruction.immediate value).events s.cursor.position,
          .error (.stackOverflow limit)⟩ := by
    rw [transcript_eq_transcriptFrom ⟨limit⟩ config,
      transcriptFrom_of_advance (Stack.fits_empty limit) hwithin,
      hends.course.transcriptFrom_eq]
    rfl
  refine ⟨k, log₁, s, u, value, hs, hlow, hheight, ?_, hvalues, ?_, ?_⟩
  · rw [hu, htranscript, ← toList_report_recording config]
  · rw [htranscript]
  · rw [htranscript]

theorem isPrefix_of_advance
    {turns : Nat} {log : Array Event} {s : State}
    (h :
      (recording config).advance turns (.initial config bytes) #[] =
        some (log, s)) :
    log.toList <+: (transcript config bytes).events := by
  rw [transcript_eq_transcriptFrom config config,
    transcriptFrom_of_advance (Stack.fits_empty config.maxStack) h]
  exact List.prefix_append _ _

/-- A run does not overflow the default limit on fewer bytes than that. -/
theorem ne_stackOverflow_of_length_lt
    (hlength : bytes.length < 2 ^ 64) (limit : Nat) :
    (transcript {} bytes).answer ≠ .error (.stackOverflow limit) := by
  intro h
  obtain ⟨_, turns, log, s, hs, hfull⟩ := full_of_transcript h
  have hheight := five_mul_height_le_of_advance hs
  have hdefault : ({} : Config).maxStack = 2 ^ 64 - 1 := rfl
  omega

/-- Under a higher limit a run that did not overflow is the same. -/
theorem transcript_of_le
    {limit limit' : Nat}
    (hle : limit ≤ limit')
    (hne :
      (transcript ⟨limit⟩ bytes).answer ≠ .error (.stackOverflow limit)) :
    transcript ⟨limit'⟩ bytes = transcript ⟨limit⟩ bytes := by
  refine transcript_within ?_ hne
  intro turns k _ log s hs
  obtain ⟨hlimit, hfits⟩ := fits_of_advance_initial hs
  rw [Stack.Fits, hlimit] at hfits
  exact hfits.trans hle

/-- Limits from the peak of the default run on make no difference to it. -/
theorem transcript_of_peak_le
    {peak limit : Nat}
    (hpeak :
      IsGreatest ((recording {}).heights (.initial {} bytes) #[]) peak)
    (hle : peak ≤ limit)
    (hrange : limit < 2 ^ 64 ∨ bytes.length < 2 ^ 64) :
    transcript ⟨limit⟩ bytes = transcript {} bytes := by
  by_cases hoverflow :
      (transcript {} bytes).answer =
        .error (.stackOverflow ({} : Config).maxStack)
  · -- The run has filled the default limit, which is the greatest one there is.
    obtain ⟨_, turns, log, s, hs, hfull⟩ := full_of_transcript hoverflow
    have hreached := hpeak.2 ⟨turns, log, s, hs, rfl⟩
    have hdefault : ({} : Config).maxStack = 2 ^ 64 - 1 := rfl
    have hbounded : limit < 2 ^ 64 := by
      refine hrange.resolve_right ?_
      intro hlength
      exact ne_stackOverflow_of_length_lt hlength _ hoverflow
    obtain rfl : limit = ({} : Config).maxStack := by omega
    rfl
  · refine transcript_within ?_ hoverflow
    intro turns k _ log s hs
    exact (hpeak.2 ⟨k, log, s, hs, rfl⟩).trans hle

/--
The limit of the stack is a threshold and nothing else.

The peak of a byte string is the greatest height that its run reaches under the
default limit, and at least five bytes have been read for each value.  Under
every limit from the peak on the transcript is that of the default run, where a
limit is a word of 64 bits or the byte string has a length of that size.  Under a
lower limit the run overflows: it is the default run up to the first push above
the limit, which is the last event to be recorded.

Consequently a higher limit does not change a run that did not overflow, and the
default limit is not overflown.
-/
theorem transcript_limit_threshold
    (bytes : List UInt8) :
    let machine : Machine (Array Event) := recording {}
    let start : State := .initial {} bytes
    (∃ peak : Nat,
      IsGreatest (machine.heights start #[]) peak ∧
      5 * peak ≤ bytes.length ∧
      (∀ limit : Nat,
        peak ≤ limit → limit < 2 ^ 64 ∨ bytes.length < 2 ^ 64 →
        transcript ⟨limit⟩ bytes = transcript {} bytes) ∧
      ∀ limit : Nat,
        limit < peak →
        let low := transcript ⟨limit⟩ bytes
        low.answer = .error (.stackOverflow limit) ∧
        low.events <+: (transcript {} bytes).events ∧
        ∃ (turns : Nat) (log : Array Event) (s t : State) (value : Value),
          machine.advance turns start #[] = some (log, s) ∧
          machine.StaysWithin limit turns start #[] ∧
          s.stack.height = limit ∧
          machine.advance (turns + 1) start #[] =
            some (low.events.toArray, t) ∧
          t.stack.values = value :: s.stack.values ∧
          low.events =
            log.toList ++
              [.opcode s.cursor.position 2,
                .immediate s.cursor.position value value.toOperand]) ∧
    (∀ limit limit' : Nat,
      limit ≤ limit' →
      (∀ n, (transcript ⟨limit⟩ bytes).answer ≠ .error (.stackOverflow n)) →
      transcript ⟨limit'⟩ bytes = transcript ⟨limit⟩ bytes) ∧
    (bytes.length < 2 ^ 64 →
      ∀ n, (transcript {} bytes).answer ≠ .error (.stackOverflow n)) := by
  intro machine start
  refine ⟨?_, ?_, ?_⟩
  · obtain ⟨peak, hpeak, hlength⟩ := exists_peak {} bytes
    refine ⟨peak, hpeak, hlength, ?_, ?_⟩
    · intro limit hle hrange
      exact transcript_of_peak_le hpeak hle hrange
    · intro limit hless low
      obtain ⟨turns, log, t, hreached, rfl⟩ := hpeak.1
      obtain ⟨k, log₁, s, u, value, hs, hlow, hheight, hu, hvalues,
        hevents, hanswer⟩ := transcript_of_exceeded hreached hless
      have hprefix := isPrefix_of_advance hu
      exact ⟨hanswer, hprefix, k, log₁, s, u, value, hs, hlow, hheight,
        hu, hvalues, hevents⟩
  · intro limit limit' hle hne
    exact transcript_of_le hle (hne limit)
  · intro hlength n
    exact ne_stackOverflow_of_length_lt hlength n

/-- One plus five takes two values: with room for one of them, for both and for more. -/
theorem transcript_limit_threshold_sum :
    let bytes : List UInt8 := [2, 0, 0, 128, 63, 2, 0, 0, 160, 64, 4, 1]
    (transcript ⟨1⟩ bytes).answer = .error (.stackOverflow 1) ∧
      (transcript ⟨1⟩ bytes).events <+: (transcript {} bytes).events ∧
      transcript ⟨2⟩ bytes = transcript {} bytes ∧
      transcript ⟨3⟩ bytes = transcript ⟨2⟩ bytes ∧
      ∀ n, (transcript {} bytes).answer ≠ .error (.stackOverflow n) := by
  intro bytes
  obtain ⟨⟨peak, hpeak, hlength, hhigh, hlow⟩, hraise, hdefault⟩ :=
    transcript_limit_threshold bytes
  have hreached :
      2 ∈ (recording {}).heights (.initial {} bytes) #[] :=
    ⟨2, _, _, rfl, by cbv⟩
  have hbytes : bytes.length = 12 := rfl
  obtain rfl : peak = 2 := by
    have hle := hpeak.2 hreached
    omega
  obtain ⟨hanswer, hprefix, _⟩ := hlow 1 (by decide)
  have hsame := hhigh 2 (Nat.le_refl 2) (Or.inl (by decide))
  have hfull := hdefault (by rw [hbytes]; decide)
  refine ⟨hanswer, hprefix, hsame, ?_, hfull⟩
  refine hraise 2 3 (by decide) ?_
  rw [hsame]
  exact hfull

end Transcripts

end Machine

end Limits

end ArithMachine
