import ArithMachine.Proofs.Boundaries
import ArithMachine.Proofs.Cursors
import ArithMachine.Proofs.Limits
import ArithMachine.Proofs.Refinement

/-!
# The invariant of the loop

`Invariant` relates a state in which a run is to the instructions that were
executed on the way to it: their wire form is what was read, and the stack holds
one value for each immediate among them that no binary operation has taken away.
Every turn that lets the run go on keeps it, so that it holds of every state that
a run reaches.

From it we derive what cannot happen.  The run ends, in no more turns than there
are bytes.  A result always finds room on the stack, since its operands were taken
off before.  Reads by index need no number beyond 64 bits.
-/

namespace ArithMachine

section Invariants

namespace Instruction

def isImmediate : Instruction → Bool
  | immediate _ => true
  | _ => false

def isBinary : Instruction → Bool
  | binary _ => true
  | _ => false

/-- An instruction takes one byte, or five with an operand. -/
theorem encodedLength_eq_or
    (i : Instruction) :
    i.encodedLength = 1 ∨ i.encodedLength = 5 := by
  cases i with
  | immediate value => exact Or.inr rfl
  | ret | negate | binary => exact Or.inl rfl

end Instruction

/-- An immediate adds a value to the stack, and a binary operation takes one away. -/
theorem Performs.length_add
    {limit : Nat} {values values' : List Value} {i : Instruction}
    (h : Performs limit values i values') :
    values'.length + [i].countP Instruction.isBinary =
      values.length + [i].countP Instruction.isImmediate := by
  cases h with
  | immediate | negate | binary => rfl

/-- A tag that is read where something is left is read without a fault. -/
theorem Cursor.exists_readByte
    {c : Cursor}
    (hmore : c.isEmpty = false) :
    ∃ (tag : UInt8) (behind : Cursor), c.readByte = (.ok tag, behind) := by
  rcases c with ⟨position, rest⟩
  cases rest with
  | nil => cases hmore
  | cons tag rest => exact ⟨tag, _, rfl⟩

/-- What holds of a state of a run, and of the instructions executed on the way to it. -/
structure Invariant
    (config : Config) (bytes : List UInt8)
    (is : List Instruction) (s : State) : Prop where
  read : bytes = encode is ++ s.cursor.rest
  position : s.cursor.position = (is.map Instruction.encodedLength).sum
  within : s.cursor.position ≤ bytes.length
  limit : s.stack.limit = config.maxStack
  height :
    s.stack.height + is.countP Instruction.isBinary =
      is.countP Instruction.isImmediate
  height_le : s.stack.height ≤ config.maxStack
  cost : 5 * s.stack.height ≤ s.cursor.position

namespace Invariant

variable {config : Config} {bytes : List UInt8}
variable {is : List Instruction} {s : State}

theorem initial
    (config : Config) (bytes : List UInt8) :
    Invariant config bytes [] (.initial config bytes) where
  read := rfl
  position := rfl
  within := Nat.zero_le _
  limit := rfl
  height := rfl
  height_le := Nat.zero_le _
  cost := Nat.le_refl _

theorem position_add
    (h : Invariant config bytes is s) :
    s.cursor.position + s.cursor.rest.length = bytes.length := by
  rw [h.position, ← length_encode_eq_sum, ← List.length_append, ← h.read]

theorem rest_eq
    (h : Invariant config bytes is s) :
    s.cursor.rest = bytes.drop s.cursor.position := by
  rw [h.position, ← length_encode_eq_sum, h.read, List.drop_left]

/-- Each instruction has taken at least one byte. -/
theorem length_le
    (h : Invariant config bytes is s) :
    is.length ≤ s.cursor.position := by
  rw [h.position, ← List.length_map (f := Instruction.encodedLength)]
  refine List.length_le_sum_of_one_le _ ?_
  intro n hn
  obtain ⟨i, _, rfl⟩ := List.mem_map.mp hn
  exact i.encodedLength_pos

theorem standsAt
    (hlength : bytes.length < 2 ^ 63)
    (h : Invariant config bytes is s) :
    IndexedCursor.StandsAt bytes
      (.ofOffset bytes s.cursor.position) s.cursor where
  bytes_eq := rfl
  index_eq := by
    have hbound : s.cursor.position < UInt64.size :=
      h.within.trans_lt (hlength.trans (by decide))
    exact UInt64.toNat_ofNat_of_lt' hbound
  rest_eq := h.rest_eq
  within := h.within

/-- By index, the tag is read and the operand behind it, with no sum beyond 64 bits. -/
theorem exists_indexed_reads
    {tag : UInt8} {behind : Cursor}
    (hlength : bytes.length < 2 ^ 63)
    (h : Invariant config bytes is s)
    (hread : s.cursor.readByte = (.ok tag, behind)) :
    ∃ next : IndexedCursor,
      (IndexedCursor.ofOffset bytes s.cursor.position).readByte =
        some (.ok tag, next) ∧
      next.index.toNat = s.cursor.position + 1 ∧
      next.index.toNat + 4 < 2 ^ 64 ∧
      IndexedCursor.Agree bytes next.readOperand behind.readOperand := by
  have hagree := IndexedCursor.readByte_agrees hlength (h.standsAt hlength)
  rw [hread] at hagree
  generalize hindexed :
    (IndexedCursor.ofOffset bytes s.cursor.position).readByte = r at hagree
  cases hagree with
  | @intro _ next _ hnext =>
      obtain ⟨_, hposition⟩ := Cursor.readByte_eq_ok_iff.mp hread
      have hindex := hnext.index_eq
      have hwithin := hnext.within
      exact ⟨next, rfl, hindex.trans hposition, by omega,
        IndexedCursor.readOperand_agrees hlength hnext⟩

theorem fits
    (h : Invariant config bytes is s) :
    s.stack.Fits := by
  rw [Stack.Fits, h.limit]
  exact h.height_le

/-- An instruction that was read and performed keeps the invariant. -/
theorem perform
    {t : State} {i : Instruction}
    (h : Invariant config bytes is s)
    (hread : s.cursor.readInstruction = .ok (i, t.cursor))
    (hperform : i.perform s.stack = .ok t.stack) :
    Invariant config bytes (is ++ [i]) t := by
  obtain ⟨hrest, hposition⟩ := Cursor.readInstruction_eq_ok_iff.mp hread
  obtain ⟨hlimit, hperforms⟩ :=
    (Instruction.perform_eq_ok_iff h.fits).mp hperform
  obtain ⟨_, htFits⟩ := Instruction.fits_of_perform h.fits hperform
  have hbytes : bytes = encode (is ++ [i]) ++ t.cursor.rest := by
    rw [encode_concat_append, ← hrest]
    exact h.read
  have hwhere :
      t.cursor.position =
        ((is ++ [i]).map Instruction.encodedLength).sum := by
    rw [hposition, h.position]
    simp
  have htLimit : t.stack.limit = config.maxStack := hlimit.trans h.limit
  refine ⟨hbytes, hwhere, ?_, htLimit, ?_, htLimit ▸ htFits, ?_⟩
  · rw [hbytes, List.length_append, length_encode_eq_sum, ← hwhere]
    exact Nat.le_add_right _ _
  · have hheight := h.height
    have hadd : t.stack.height + _ = s.stack.height + _ :=
      hperforms.length_add
    rw [List.countP_append, List.countP_append]
    omega
  · have hcost := h.cost
    have hfive : 5 * t.stack.height ≤ 5 * s.stack.height + _ :=
      hperforms.five_mul_length_le
    omega

section Machine

variable {σ : Type} {m : Machine σ} {log log' : σ} {t : State}

/-- A turn that lets the run go on keeps the invariant, and moves on by one byte or by five. -/
theorem step
    (h : Invariant config bytes is s)
    (hstep : (m.step s log).2 = .next t) :
    (∃ i, Invariant config bytes (is ++ [i]) t) ∧
      (t.cursor.position = s.cursor.position + 1 ∨
        t.cursor.position = s.cursor.position + 5) := by
  obtain ⟨i, hread, hperform⟩ := Machine.of_step_next hstep
  obtain ⟨_, hposition⟩ := Cursor.readInstruction_eq_ok_iff.mp hread
  refine ⟨⟨i, h.perform hread hperform⟩, ?_⟩
  rw [hposition]
  rcases i.encodedLength_eq_or with hone | hfive
  · exact Or.inl (by rw [hone])
  · exact Or.inr (by rw [hfive])

/-- Turns keep the invariant, with the instructions at which they start. -/
theorem advance
    {turns : Nat}
    (h : Invariant config bytes is s)
    (hadvance : m.advance turns s log = some (log', t)) :
    Invariant config bytes (is ++ m.executed turns s log) t := by
  induction turns generalizing is s log with
  | zero =>
      cases hadvance
      rw [Machine.executed, List.append_nil]
      exact h
  | succ turns ih =>
      obtain ⟨i, behind, stack, hread, hperform, hbehind⟩ :=
        Machine.of_advance_succ hadvance
      have hnext : Invariant config bytes (is ++ [i]) ⟨behind, stack⟩ :=
        h.perform hread hperform
      rw [Machine.executed_succ hread hperform, ← List.singleton_append,
        ← List.append_assoc]
      exact ih hnext hbehind

end Machine

end Invariant

namespace Stack

variable {s below : Stack} {value : Value}

theorem height_of_pop?
    (h : s.pop? = some (value, below)) :
    below.limit = s.limit ∧ s.height = below.height + 1 := by
  rcases s with ⟨limit, values⟩
  cases values with
  | nil => cases h
  | cons top values =>
      cases h
      exact ⟨rfl, rfl⟩

theorem Fits.of_pop?
    (hfits : s.Fits)
    (h : s.pop? = some (value, below)) :
    below.Fits := by
  obtain ⟨hlimit, hheight⟩ := height_of_pop? h
  rw [Fits, hheight] at hfits
  rw [Fits, hlimit]
  omega

/-- Where a value was taken off, there is room for a result. -/
theorem Fits.exists_push_of_pop?
    (hfits : s.Fits)
    (h : s.pop? = some (value, below)) (result : Value) :
    ∃ t, below.push result = .ok t := by
  obtain ⟨hlimit, hheight⟩ := height_of_pop? h
  have hroom : ¬ below.limit ≤ below.height := by
    rw [Fits, hheight] at hfits
    rw [hlimit]
    omega
  exact ⟨_, (push_eq _ _).trans (if_neg hroom)⟩

end Stack

namespace Machine

variable {σ : Type} {m : Machine σ} {bytes : List UInt8}
variable {is : List Instruction} {s t : State} {log log' : σ}

/-- Only an immediate overflows the stack, and only where the stack is full. -/
theorem of_step_stackOverflow
    {limit : Nat}
    (hfits : s.stack.Fits)
    (h : (m.step s log).2 = .halt (.error (.stackOverflow limit))) :
    limit = s.stack.limit ∧ s.stack.height = limit ∧
      ∃ (value : Value) (behind : Cursor),
        s.cursor.readInstruction = .ok (.immediate value, behind) := by
  rcases of_step_halt h with
    ⟨fault, hread, hfault⟩ | ⟨i, behind, hread, hperform⟩
  · cases hfault
    exact (Cursor.ofReading_of_readInstruction hread).elim
  · have hstops := (Instruction.perform_eq_error_iff hfits).mp hperform
    generalize hvalues : s.stack.values = values at hstops
    cases hstops with
    | overflow hfull =>
        rw [← hvalues] at hfull
        exact ⟨rfl, Nat.le_antisymm hfits hfull, _, behind, hread⟩

/-- Where a turn does not let the run go on, the run has its answer. -/
theorem exists_halt
    (h : m.advance 1 s log = none) :
    ∃ (log' : σ) (answer : Answer), m.step s log = (log', .halt answer) := by
  rw [advance] at h
  split at h
  · cases h
  · rename_i log' answer hstep
    exact ⟨log', answer, hstep⟩

/-- A run ends after as many turns as it has bytes at most, the last one included. -/
theorem exists_end
    (m : Machine σ) (bytes : List UInt8) (log : σ) :
    ∃ (turns : Nat) (log' : σ) (s : State),
      m.advance turns (.initial m.config bytes) log = some (log', s) ∧
      ((turns ≤ bytes.length ∧ s.cursor.isEmpty = true ∧
          m.tryExecute bytes log = (log', .error .missingReturn)) ∨
        (turns + 1 ≤ bytes.length ∧ s.cursor.isEmpty = false ∧
          ∃ (last : σ) (answer : Answer),
            m.step s log' = (last, .halt answer) ∧
            m.tryExecute bytes log = (last, answer))) := by
  obtain ⟨is, s, _, _, hcourse⟩ := exists_course_initial m.config bytes
  obtain ⟨hadvance, hend⟩ := hcourse.advance m log
  rw [advance_add hadvance] at hend
  have hreached := (Invariant.initial m.config bytes).advance hadvance
  obtain ⟨hlength, _⟩ := carriesOut_executed hadvance
  have hturns := hreached.length_le
  rw [List.nil_append, hlength] at hturns
  have hsplit := hreached.position_add
  refine ⟨_, _, s, hadvance, ?_⟩
  rw [tryExecute, run_of_advance hadvance, run_eq]
  cases hempty : s.cursor.isEmpty with
  | true => exact Or.inl ⟨by omega, rfl, rfl⟩
  | false =>
      have hmore : s.cursor.rest ≠ [] := by
        simpa [Cursor.isEmpty] using hempty
      have hpos := List.length_pos_iff.mpr hmore
      obtain ⟨last, answer, hstep⟩ := exists_halt hend
      refine Or.inr ⟨by omega, rfl, last, answer, hstep, ?_⟩
      rw [hstep]
      rfl

/--
The loop keeps its invariant and ends.

In each state that a run reaches, the position is the length of the instructions
executed, the height of the stack is the number of immediates among them less that
of binary operations, no greater than the limit, and paid for with five bytes a
value.  A turn that lets the run go on moves by one byte or by five, so that there
are no more turns than bytes.

Some faults cannot occur.  Where something is left to read, the tag is read, and
for byte strings of a length below 2 ^ 63 the end of the operand behind it is
found within 64 bits and the operand is cut out within the bytes.  Where one value
or two have been taken off the stack, a result can be pushed: the stack overflows
at immediates only, when it is full.
-/
theorem loop_invariant
    (m : Machine σ) (bytes : List UInt8) (log : σ) :
    let start := State.initial m.config bytes
    (∀ (turns : Nat) (log' : σ) (s : State),
      m.advance turns start log = some (log', s) →
      let is := m.executed turns start log
      is.length = turns ∧ turns ≤ bytes.length ∧
      Invariant m.config bytes is s ∧
      (∀ t, (m.step s log').2 = .next t →
        t.cursor.position = s.cursor.position + 1 ∨
        t.cursor.position = s.cursor.position + 5) ∧
      (∀ limit,
        (m.step s log').2 = .halt (.error (.stackOverflow limit)) →
        limit = m.config.maxStack ∧ s.stack.height = limit ∧
        ∃ (value : Value) (behind : Cursor),
          s.cursor.readInstruction = .ok (.immediate value, behind)) ∧
      (∀ (right : Value) (below : Stack),
        s.stack.pop? = some (right, below) →
        (∀ result, ∃ t, below.push result = .ok t) ∧
        ∀ (left : Value) (rest : Stack),
          below.pop? = some (left, rest) →
          ∀ result, ∃ t, rest.push result = .ok t) ∧
      (s.cursor.isEmpty = false →
        ∃ (tag : UInt8) (behind : Cursor),
          s.cursor.readByte = (.ok tag, behind) ∧
          (bytes.length < 2 ^ 63 →
            ∃ next : IndexedCursor,
              (IndexedCursor.ofOffset bytes s.cursor.position).readByte =
                some (.ok tag, next) ∧
              next.index.toNat = s.cursor.position + 1 ∧
              next.index.toNat + 4 < 2 ^ 64 ∧
              IndexedCursor.Agree bytes
                next.readOperand behind.readOperand))) ∧
    ∃ (turns : Nat) (log' : σ) (s : State),
      m.advance turns start log = some (log', s) ∧
      ((turns ≤ bytes.length ∧ s.cursor.isEmpty = true ∧
          m.tryExecute bytes log = (log', .error .missingReturn)) ∨
        (turns + 1 ≤ bytes.length ∧ s.cursor.isEmpty = false ∧
          ∃ (last : σ) (answer : Answer),
            m.step s log' = (last, .halt answer) ∧
            m.tryExecute bytes log = (last, answer))) := by
  intro start
  refine ⟨?_, exists_end m bytes log⟩
  intro turns log' s hadvance is
  have hreached : Invariant m.config bytes is s :=
    (Invariant.initial m.config bytes).advance hadvance
  obtain ⟨hlength, _⟩ := carriesOut_executed hadvance
  have hturns : turns ≤ bytes.length := by
    rw [← hlength]
    exact hreached.length_le.trans hreached.within
  refine ⟨hlength, hturns, hreached, ?_, ?_, ?_, ?_⟩
  · intro t hstep
    exact (hreached.step hstep).2
  · intro limit hstep
    rw [← hreached.limit]
    exact of_step_stackOverflow hreached.fits hstep
  · intro right below hright
    refine ⟨hreached.fits.exists_push_of_pop? hright, ?_⟩
    intro left rest hleft
    exact (hreached.fits.of_pop? hright).exists_push_of_pop? hleft
  · intro hmore
    obtain ⟨tag, behind, hread⟩ := Cursor.exists_readByte hmore
    refine ⟨tag, behind, hread, ?_⟩
    intro hbytes
    exact hreached.exists_indexed_reads hbytes hread

/-- A value that is negated, and another one for which there is no room. -/
theorem loop_invariant_overflow :
    let m : Machine Unit := ⟨⟨1⟩, .silent⟩
    let bytes : List UInt8 := [2, 0, 0, 160, 64, 3, 2, 0, 0, 0, 0]
    let start := State.initial m.config bytes
    ∃ s : State,
      m.advance 2 start () = some ((), s) ∧
      s.cursor.position = 6 ∧ s.stack.height = 1 ∧
      Invariant m.config bytes (m.executed 2 start ()) s ∧
      (∃ t, s.stack.negate = .ok t) ∧
      (m.step s ()).2 = .halt (.error (.stackOverflow 1)) ∧
      (∃ (value : Value) (behind : Cursor),
        s.cursor.readInstruction = .ok (.immediate value, behind)) ∧
      ∃ (tag : UInt8) (next : IndexedCursor),
        (IndexedCursor.ofOffset bytes 6).readByte =
          some (.ok tag, next) ∧
        next.index.toNat = 7 := by
  intro m bytes start
  let s : State :=
    ⟨⟨6, [2, 0, 0, 0, 0]⟩, ⟨1, [⟨0xc0a00000⟩]⟩⟩
  have hadvance : m.advance 2 start () = some ((), s) := by cbv
  have hstep :
      (m.step s ()).2 = .halt (.error (.stackOverflow 1)) := by cbv
  obtain ⟨hreached, _⟩ := m.loop_invariant bytes ()
  obtain ⟨_, _, hinvariant, _, hoverflow, hpush, hreads⟩ :=
    hreached 2 () s hadvance
  obtain ⟨_, _, himmediate⟩ := hoverflow 1 hstep
  obtain ⟨t, hroom⟩ := (hpush _ _ rfl).1 ⟨0x40a00000⟩
  obtain ⟨tag, behind, _, hindexed⟩ := hreads rfl
  obtain ⟨next, htag, hindex, _⟩ := hindexed (by decide)
  exact ⟨s, hadvance, rfl, rfl, hinvariant, ⟨t, hroom⟩, hstep,
    himmediate, tag, next, htag, hindex⟩

end Machine

end Invariants

end ArithMachine
