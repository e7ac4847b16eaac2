import ArithMachine.Machine.Basic

/-!
# Progress of a run

`Machine.advance` takes a run a given number of turns forward and answers with
the state and the log it has reached, unless the run has ended before.  A run
started elsewhere can be taken up from there: `Machine.run_of_advance`.
-/

namespace ArithMachine

namespace Machine

section Progress

variable {σ : Type}

/-- The log and the state after a number of turns, each of which let the run go on. -/
def advance (m : Machine σ) : Nat → State → σ → Option (σ × State)
  | 0, s, log => some (log, s)
  | turns + 1, s, log =>
      match m.step s log with
      | (log, .next t) => m.advance turns t log
      | (_, .halt _) => none

/-- A turn after which the run goes on had something to read. -/
theorem isEmpty_of_step_eq_next {m : Machine σ} {s t : State} {log : σ}
    (h : (m.step s log).2 = .next t) : s.cursor.isEmpty = false := by
  have hshort := step_shortens h
  cases hrest : s.cursor.rest with
  | nil => simp [hrest] at hshort
  | cons byte rest => simp [Cursor.isEmpty, hrest]

/-- The run from a state that was reached ends as the run that reached it. -/
theorem run_of_advance {m : Machine σ} {turns : Nat} {s t : State} {log log' : σ}
    (h : m.advance turns s log = some (log', t)) :
    m.run s log = m.run t log' := by
  induction turns generalizing s log with
  | zero =>
    simp only [advance, Option.some.injEq, Prod.mk.injEq] at h
    rw [h.1, h.2]
  | succ turns ih =>
    unfold advance at h
    split at h
    · rename_i log₁ u hstep
      have hmore : s.cursor.isEmpty = false :=
        isEmpty_of_step_eq_next (by rw [hstep])
      rw [← ih h, run_eq]
      simp [hmore, hstep]
    · simp at h

end Progress

end Machine

end ArithMachine
