import ArithMachine.Expr
import ArithMachine.Program.Evaluation
import ArithMachine.Stack
import Mathlib

/-!
# Performing instructions

This module says what instructions do to a stack, without bytes and offsets.

`Instruction.perform` is one instruction: it leaves a stack, or it ends the run
with an answer.  Two relations state the same without the operations of the
stack: `Performs` lists the ways in which an instruction lets the run go on, and
`Stops` those in which it ends it.  On a stack within its limit the function
agrees with them.  In particular an operation that has taken its operands off
the stack always finds room for its result.

`performAll` is a list of instructions.  The evaluation of a list is
`performAll` with the stack forgotten at the end.

Evaluation, of lists and of expressions, names the arithmetic of each operator on
its own and knows nothing of `BinaryOp.apply`, by which a stack chooses it.  That
both choose alike is `evaluateFrom_binary` and `Expr.eval_binary`.
-/

namespace ArithMachine

section Performing

/-- The stack holds no more than its limit. -/
def Stack.Fits (s : Stack) : Prop :=
  s.height ≤ s.limit

theorem Stack.fits_empty (limit : Nat) :
    (Stack.empty limit).Fits :=
  Nat.zero_le limit

/-- What an instruction makes of a stack: a stack, or the answer that ends the run. -/
def Instruction.perform (s : Stack) : Instruction → Except Answer Stack
  | ret => .error (.ok s.top?)
  | immediate value => (s.push value).mapError .error
  | negate => s.negate.mapError .error
  | binary op => (s.combine op).mapError .error

/-- The instructions of a list one after the other, until one ends the run. -/
def performAll : Stack → List Instruction → Except Answer Stack
  | s, [] => .ok s
  | s, i :: is =>
      match i.perform s with
      | .ok t => performAll t is
      | .error answer => .error answer

/-- How an instruction lets a run go on; values are listed with the top first. -/
inductive Performs (limit : Nat) :
    List Value → Instruction → List Value → Prop
  | immediate
      {value : Value} {values : List Value}
      (hroom : values.length < limit) :
      Performs limit values (.immediate value) (value :: values)
  | negate
      {value : Value} {below : List Value} :
      Performs limit (value :: below) .negate (value.negate :: below)
  | binary
      {op : BinaryOp} {left right : Value} {below : List Value} :
      Performs limit (right :: left :: below) (.binary op)
        (op.apply left right :: below)

/-- How an instruction ends a run. -/
inductive Stops (limit : Nat) :
    List Value → Instruction → Answer → Prop
  | ret
      {values : List Value} :
      Stops limit values .ret (.ok values.head?)
  | overflow
      {value : Value} {values : List Value}
      (hfull : limit ≤ values.length) :
      Stops limit values (.immediate value)
        (.error (.stackOverflow limit))
  | negate :
      Stops limit [] .negate (.error (.stackUnderflow .negate))
  | binary
      {op : BinaryOp} {values : List Value}
      (hshort : values.length < 2) :
      Stops limit values (.binary op)
        (.error (.stackUnderflow (.binary op)))

/-- The two relations leave no case out. -/
theorem performs_or_stops
    (limit : Nat) (values : List Value) (i : Instruction) :
    (∃ values', Performs limit values i values') ∨
      ∃ answer, Stops limit values i answer := by
  cases i with
  | ret => exact Or.inr ⟨_, .ret⟩
  | immediate value =>
      by_cases hroom : values.length < limit
      · exact Or.inl ⟨_, .immediate hroom⟩
      · exact Or.inr ⟨_, .overflow (by omega)⟩
  | negate =>
      cases values with
      | nil => exact Or.inr ⟨_, .negate⟩
      | cons value below => exact Or.inl ⟨_, .negate⟩
  | binary op =>
      rcases values with _ | ⟨right, _ | ⟨left, below⟩⟩
      · exact Or.inr ⟨_, .binary (by simp)⟩
      · exact Or.inr ⟨_, .binary (by simp)⟩
      · exact Or.inl ⟨_, .binary⟩

/-- No instruction takes a stack beyond its limit. -/
theorem Performs.length_le
    {limit : Nat} {values values' : List Value} {i : Instruction}
    (h : Performs limit values i values')
    (hfits : values.length ≤ limit) :
    values'.length ≤ limit := by
  cases h with
  | immediate hroom => exact hroom
  | negate => exact hfits
  | binary =>
      simp only [List.length_cons] at hfits ⊢
      omega

namespace Instruction

variable {limit : Nat} {values values' : List Value}
variable {i : Instruction} {answer : Answer}

theorem perform_of_performs
    (hfits : values.length ≤ limit)
    (h : Performs limit values i values') :
    i.perform ⟨limit, values⟩ = .ok ⟨limit, values'⟩ := by
  -- The pops have made room, so that the push of a result does not overflow.
  cases h with
  | immediate hroom =>
      have hlimit : ¬ limit ≤ values.length := by omega
      simp [perform, Stack.push_eq, hlimit, Except.mapError]
  | @negate value below =>
      have hlimit : ¬ limit ≤ below.length := by
        simp only [List.length_cons] at hfits
        omega
      simp [perform, Stack.negate, Stack.popFor, Stack.push_eq, hlimit,
        Except.mapError, bind, Except.bind]
  | @binary op left right below =>
      have hlimit : ¬ limit ≤ below.length := by
        simp only [List.length_cons] at hfits
        omega
      simp [perform, Stack.combine, Stack.popFor, Stack.push_eq, hlimit,
        Except.mapError, bind, Except.bind]

theorem perform_of_stops
    (h : Stops limit values i answer) :
    i.perform ⟨limit, values⟩ = .error answer := by
  cases h with
  | ret => rfl
  | overflow hfull =>
      simp [perform, Stack.push_eq, hfull, Except.mapError]
  | negate => rfl
  | binary hshort =>
      rcases values with _ | ⟨right, _ | ⟨left, below⟩⟩
      · rfl
      · rfl
      · simp only [List.length_cons] at hshort
        omega

theorem perform_eq_ok_iff
    {s t : Stack}
    (hfits : s.Fits) :
    i.perform s = .ok t ↔
      t.limit = s.limit ∧ Performs s.limit s.values i t.values := by
  rcases s with ⟨limit, values⟩
  rcases t with ⟨limit', values'⟩
  constructor
  · intro h
    rcases performs_or_stops limit values i with
      ⟨found, hperforms⟩ | ⟨answer, hstops⟩
    · rw [perform_of_performs hfits hperforms] at h
      cases h
      exact ⟨rfl, hperforms⟩
    · rw [perform_of_stops hstops] at h
      cases h
  · rintro ⟨hlimit, hperforms⟩
    dsimp only at hlimit
    subst hlimit
    exact perform_of_performs hfits hperforms

theorem perform_eq_error_iff
    {s : Stack}
    (hfits : s.Fits) :
    i.perform s = .error answer ↔
      Stops s.limit s.values i answer := by
  constructor
  · intro h
    rcases performs_or_stops s.limit s.values i with
      ⟨found, hperforms⟩ | ⟨other, hstops⟩
    · rw [perform_of_performs hfits hperforms] at h
      cases h
    · rw [perform_of_stops hstops] at h
      cases h
      exact hstops
  · exact perform_of_stops

/-- What a performed instruction keeps: the limit, and that the stack is within it. -/
theorem fits_of_perform
    {s t : Stack}
    (hfits : s.Fits)
    (h : i.perform s = .ok t) :
    t.limit = s.limit ∧ t.Fits := by
  obtain ⟨hlimit, hperforms⟩ := (perform_eq_ok_iff hfits).mp h
  refine ⟨hlimit, ?_⟩
  have hlength := hperforms.length_le hfits
  rwa [← hlimit] at hlength

end Instruction

section Lists

variable {s t : Stack} {i : Instruction} {is : List Instruction}
variable {answer : Answer}

theorem performAll_cons_eq_ok_iff :
    performAll s (i :: is) = .ok t ↔
      ∃ u, i.perform s = .ok u ∧ performAll u is = .ok t := by
  simp only [performAll]
  cases i.perform s with
  | error answer => simp
  | ok u => simp

theorem performAll_cons_eq_error_iff :
    performAll s (i :: is) = .error answer ↔
      i.perform s = .error answer ∨
        ∃ u, i.perform s = .ok u ∧
          performAll u is = .error answer := by
  simp only [performAll]
  cases i.perform s with
  | error answer => simp
  | ok u => simp

end Lists

theorem performAll_singleton
    (s : Stack) (i : Instruction) :
    performAll s [i] = i.perform s := by
  simp only [performAll]
  cases i.perform s with
  | ok t => rfl
  | error answer => rfl

/-- A list of instructions is performed one part after the other. -/
theorem performAll_append
    (s : Stack) (is js : List Instruction) :
    performAll s (is ++ js) =
      match performAll s is with
      | .ok t => performAll t js
      | .error answer => .error answer := by
  induction is generalizing s with
  | nil => rfl
  | cons i is ih =>
      simp only [List.cons_append, performAll]
      cases i.perform s with
      | ok t => exact ih t
      | error answer => rfl

/--
What holds of a stack before any instruction and is kept by each instruction
holds when a list of them was performed.  It may speak of the instructions
performed so far.
-/
theorem performAll_induction
    {P : List Instruction → Stack → Prop}
    {s t : Stack} {is : List Instruction}
    (hfits : s.Fits)
    (hstart : P [] s)
    (hstep :
      ∀ {before : List Instruction} {i : Instruction} {u v : Stack},
        P before u → v.limit = u.limit →
        Performs u.limit u.values i v.values →
        P (before ++ [i]) v)
    (h : performAll s is = .ok t) :
    P is t := by
  have hrest :
      ∀ (rest before : List Instruction) (u : Stack),
        u.Fits → P before u → performAll u rest = .ok t →
        P (before ++ rest) t := by
    intro rest
    induction rest with
    | nil =>
        intro before u _ hu hdone
        cases hdone
        rwa [List.append_nil]
    | cons i rest ih =>
        intro before u huFits hu hdone
        obtain ⟨v, hperform, hbehind⟩ :=
          performAll_cons_eq_ok_iff.mp hdone
        obtain ⟨hlimit, hperforms⟩ :=
          (Instruction.perform_eq_ok_iff huFits).mp hperform
        have hvFits := (Instruction.fits_of_perform huFits hperform).2
        have hv := hstep hu hlimit hperforms
        have hdone' := ih (before ++ [i]) v hvFits hv hbehind
        rwa [List.append_assoc] at hdone'
  exact hrest is [] s hfits hstart h

theorem fits_of_performAll
    {s t : Stack} {is : List Instruction}
    (hfits : s.Fits)
    (h : performAll s is = .ok t) :
    t.limit = s.limit ∧ t.Fits := by
  refine
    performAll_induction
      (P := fun _ u => u.limit = s.limit ∧ u.Fits)
      hfits ⟨rfl, hfits⟩ ?_ h
  rintro before i u v ⟨hu, huFits⟩ hlimit hperforms
  refine ⟨hlimit.trans hu, ?_⟩
  have hlength := hperforms.length_le huFits
  rwa [← hlimit] at hlength

/-- A list that ends the run does so at one of its instructions. -/
theorem stops_of_performAll
    {s : Stack} {is : List Instruction} {answer : Answer}
    (hfits : s.Fits)
    (h : performAll s is = .error answer) :
    ∃ (before : List Instruction) (i : Instruction)
      (after : List Instruction) (t : Stack),
      is = before ++ i :: after ∧
      performAll s before = .ok t ∧
      Stops t.limit t.values i answer := by
  induction is generalizing s with
  | nil => cases h
  | cons i is ih =>
      rcases performAll_cons_eq_error_iff.mp h with
        hperform | ⟨u, hperform, hbehind⟩
      · have hstops := (Instruction.perform_eq_error_iff hfits).mp hperform
        exact ⟨[], i, is, s, rfl, rfl, hstops⟩
      · have huFits := (Instruction.fits_of_perform hfits hperform).2
        obtain ⟨before, j, after, t, rfl, hbefore, hstops⟩ :=
          ih huFits hbehind
        refine ⟨i :: before, j, after, t, rfl, ?_, hstops⟩
        exact performAll_cons_eq_ok_iff.mpr ⟨u, hperform, hbefore⟩

section Operators

/-- An expression has the value that the stack would make of its operands. -/
theorem Expr.eval_binary (op : BinaryOp) (l r : Expr) :
    (Expr.binary op l r).eval = op.apply l.eval r.eval := by
  cases op with
  | add | subtract | multiply | divide => rfl

/-- An evaluation goes on with what the stack would make of two operands. -/
theorem evaluateFrom_binary
    (limit : Nat) (op : BinaryOp) (left right : Value)
    (below : List Value) (is : List Instruction) :
    evaluateFrom limit (right :: left :: below) (.binary op :: is) =
      evaluateFrom limit (op.apply left right :: below) is := by
  cases op with
  | add | subtract | multiply | divide => rfl

end Operators

/-- One instruction of an evaluation. -/
theorem evaluateFrom_cons
    {s : Stack}
    (hfits : s.Fits)
    (i : Instruction) (is : List Instruction) :
    evaluateFrom s.limit s.values (i :: is) =
      match i.perform s with
      | .ok t => evaluateFrom s.limit t.values is
      | .error answer => answer := by
  rcases s with ⟨limit, values⟩
  rcases performs_or_stops limit values i with
    ⟨found, hperforms⟩ | ⟨answer, hstops⟩
  · rw [Instruction.perform_of_performs hfits hperforms]
    cases hperforms with
    | immediate hroom => simp [evaluateFrom, hroom]
    | negate => rfl
    | binary => exact evaluateFrom_binary _ _ _ _ _ _
  · rw [Instruction.perform_of_stops hstops]
    cases hstops with
    | ret => rfl
    | overflow hfull =>
        have hroom : ¬ values.length < limit := by omega
        simp [evaluateFrom, hroom]
    | negate => rfl
    | binary hshort =>
        rcases values with _ | ⟨right, _ | ⟨left, below⟩⟩
        · simp [evaluateFrom]
        · simp [evaluateFrom]
        · simp only [List.length_cons] at hshort
          omega

/-- Evaluation performs the list, and misses a return where nothing ended the run. -/
theorem evaluateFrom_eq
    {s : Stack}
    (hfits : s.Fits)
    (is : List Instruction) :
    evaluateFrom s.limit s.values is =
      match performAll s is with
      | .ok _ => .error .missingReturn
      | .error answer => answer := by
  induction is generalizing s with
  | nil => simp [evaluateFrom, performAll]
  | cons i is ih =>
      rw [evaluateFrom_cons hfits, performAll]
      cases hperform : i.perform s with
      | error answer => rfl
      | ok t =>
          obtain ⟨hlimit, htFits⟩ :=
            Instruction.fits_of_perform hfits hperform
          rw [← hlimit]
          exact ih htFits

end Performing

end ArithMachine
