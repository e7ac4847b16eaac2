import ArithMachine.Expr
import ArithMachine.Proofs.Turns

/-!
# Running expressions

The program of an expression computes its value, and `Expr.need` is exactly the
room it takes: with that much room above the values on the stack the program
puts one value on top of them, and with less room it overflows the stack.

The statement on instructions is an induction on the expression over all
stacks.  It is carried over to the machine both for a run from the start and for
a run that has come to the program of an expression in any other way, with
whatever bytes behind the return.
-/

namespace ArithMachine

section Postfix

variable {limit : Nat}

namespace Expr

/-- With enough room an expression leaves its value on top of what was there. -/
theorem performAll_compile
    (e : Expr) {values : List Value}
    (hroom : values.length + e.need ≤ limit) :
    performAll ⟨limit, values⟩ e.compile =
      .ok ⟨limit, e.eval :: values⟩ := by
  induction e generalizing values with
  | value v =>
      have hfits : values.length ≤ limit :=
        Nat.le_of_add_right_le hroom
      rw [compile, performAll_singleton, eval]
      exact Instruction.perform_of_performs hfits (.immediate hroom)
  | negate e ih =>
      have hpos : 0 < e.need := e.need_pos
      rw [need] at hroom
      have hfits : (e.eval :: values).length ≤ limit := by
        rw [List.length_cons]
        omega
      rw [compile, performAll_append, ih hroom, eval]
      dsimp only
      rw [performAll_singleton]
      exact Instruction.perform_of_performs hfits .negate
  | binary op l r ihl ihr =>
      have hpos : 0 < r.need := r.need_pos
      rw [need] at hroom
      have hleft : values.length + l.need ≤ limit := by omega
      have hright : (l.eval :: values).length + r.need ≤ limit := by
        rw [List.length_cons]
        omega
      have hfits : (r.eval :: l.eval :: values).length ≤ limit := by
        rw [List.length_cons]
        omega
      rw [compile, performAll_append, performAll_append, ihl hleft,
        eval_binary]
      dsimp only
      rw [ihr hright]
      dsimp only
      rw [performAll_singleton]
      exact Instruction.perform_of_performs hfits .binary

/-- With less room it overflows the stack. -/
theorem performAll_compile_overflow
    (e : Expr) {values : List Value}
    (hfits : values.length ≤ limit)
    (hfull : limit < values.length + e.need) :
    performAll ⟨limit, values⟩ e.compile =
      .error (.error (.stackOverflow limit)) := by
  induction e generalizing values with
  | value v =>
      rw [compile, performAll_singleton]
      exact Instruction.perform_of_stops (.overflow (Nat.le_of_lt_succ hfull))
  | negate e ih =>
      rw [need] at hfull
      rw [compile, performAll_append, ih hfits hfull]
  | binary op l r ihl ihr =>
      rw [compile, performAll_append, performAll_append]
      -- The left operand overflows, or it leaves a value and the right one does.
      by_cases hleft : values.length + l.need ≤ limit
      · have hpos : 0 < l.need := l.need_pos
        rw [need] at hfull
        have hbelow : (l.eval :: values).length ≤ limit := by
          rw [List.length_cons]
          omega
        have hright : limit < (l.eval :: values).length + r.need := by
          rw [List.length_cons]
          omega
        rw [l.performAll_compile hleft]
        dsimp only
        rw [ihr hbelow hright]
      · rw [ihl hfits (Nat.lt_of_not_le hleft)]

/-- In front of a return the value of the expression is the answer, if there is room for it. -/
theorem performAll_compile_ret
    (e : Expr) {values : List Value}
    (hfits : values.length ≤ limit) :
    performAll ⟨limit, values⟩ (e.compile ++ [.ret]) =
      .error
        (if values.length + e.need ≤ limit then .ok (some e.eval)
        else .error (.stackOverflow limit)) := by
  rw [performAll_append]
  by_cases hroom : values.length + e.need ≤ limit
  · rw [e.performAll_compile hroom, if_pos hroom]
    rfl
  · rw [e.performAll_compile_overflow hfits (Nat.lt_of_not_le hroom),
      if_neg hroom]

end Expr

namespace Machine

variable {σ : Type} {m : Machine σ}

/-- The answer from a state that stands in front of an expression and a return. -/
theorem run_compile
    (e : Expr) {s : State} {rest : List UInt8} (log : σ)
    (hfits : s.stack.Fits)
    (hrest : s.cursor.rest = encode (e.compile ++ [.ret]) ++ rest) :
    (m.run s log).2 =
      if s.stack.height + e.need ≤ s.stack.limit then .ok (some e.eval)
      else .error (.stackOverflow s.stack.limit) :=
  run_of_performAll_error log hrest (e.performAll_compile_ret hfits)

/-- The state in front of the return. -/
theorem advance_compile
    (e : Expr) {s : State} {rest : List UInt8} (log : σ)
    (hroom : s.stack.height + e.need ≤ s.stack.limit)
    (hrest : s.cursor.rest = encode (e.compile ++ [.ret]) ++ rest) :
    m.advance e.compile.length s log =
      some
        (m.report log (eventsFrom s.cursor.position e.compile),
          ⟨⟨s.cursor.position + (encode e.compile).length,
              Instruction.ret.encode ++ rest⟩,
            ⟨s.stack.limit, e.eval :: s.stack.values⟩⟩) := by
  rw [encode_append, List.append_assoc] at hrest
  exact
    advance_of_carriesOut
      ⟨hrest, rfl, e.performAll_compile hroom, rfl⟩

/--
Programs of expressions compute them, and need exactly the room that the
expression needs.

The first part is a run of such a program with a return at its end, for any
lines.  The others speak of a run that has come to the program of an expression
and a return in the midst of its bytes: the answer is the same, where the values
that are already on the stack count, and just before the return these values are
still there below the value of the expression.
-/
theorem run_compile_exact
    (m : Machine σ) (e : Expr) :
    (∀ (p : Program) (log : σ),
      p.instructions = e.compile ++ [.ret] →
      (m.tryExecute p.encode log).2 =
        if e.need ≤ m.config.maxStack then .ok (some e.eval)
        else .error (.stackOverflow m.config.maxStack)) ∧
    (∀ (bytes rest : List UInt8) (turns : Nat) (s : State) (log log' : σ),
      m.advance turns (.initial m.config bytes) log = some (log', s) →
      s.cursor.rest = encode (e.compile ++ [.ret]) ++ rest →
      ((m.tryExecute bytes log).2 =
        if s.stack.height + e.need ≤ m.config.maxStack then
          .ok (some e.eval)
        else .error (.stackOverflow m.config.maxStack)) ∧
      (s.stack.height + e.need ≤ m.config.maxStack →
        ∃ (log'' : σ) (t : State),
          m.advance (turns + e.compile.length)
            (.initial m.config bytes) log = some (log'', t) ∧
          t.cursor.rest = Instruction.ret.encode ++ rest ∧
          t.stack.values = e.eval :: s.stack.values)) := by
  refine ⟨?_, ?_⟩
  · intro p log hp
    have hrest :
        (State.initial m.config p.encode).cursor.rest =
          encode (e.compile ++ [.ret]) ++ [] := by
      rw [List.append_nil, ← hp]
      rfl
    have hanswer := run_compile (m := m) e log (Stack.fits_empty _) hrest
    have hheight : (Stack.empty m.config.maxStack).height + e.need = e.need :=
      Nat.zero_add e.need
    simp only [State.initial, hheight] at hanswer
    exact hanswer
  · intro bytes rest turns s log log' hreached hrest
    obtain ⟨hlimit, hfits⟩ := fits_of_advance_initial hreached
    rw [← hlimit]
    refine ⟨?_, ?_⟩
    · rw [tryExecute, run_of_advance hreached]
      exact run_compile e log' hfits hrest
    · intro hroom
      have hreturn := advance_compile (m := m) e log' hroom hrest
      rw [← advance_add hreached] at hreturn
      exact ⟨_, _, hreturn, rfl, rfl⟩

/--
Minus one by two, with just enough room and with too little, and above a five; and
five negated, with nothing else to do.

Operands that are exchanged, another operation or a negation without effect would each
give another word.
-/
theorem run_compile_exact_quotient :
    let one : Value := ⟨0x3f800000⟩
    let two : Value := ⟨0x40000000⟩
    let five : Value := ⟨0x40a00000⟩
    let minusHalf : Value := ⟨0xbf000000⟩
    let minusFive : Value := ⟨0xc0a00000⟩
    let e : Expr :=
      .binary .divide (.negate (.value one)) (.value two)
    let n : Expr := .negate (.value five)
    let p : Program := ⟨e.compile ++ [.ret], [1, 1, 2, 2, 2], rfl⟩
    let q : Program := ⟨n.compile ++ [.ret], [1, 1, 1], rfl⟩
    let above : List UInt8 := (Instruction.immediate five).encode ++ p.encode
    let machine (limit : Nat) : Machine Unit := ⟨⟨limit⟩, .silent⟩
    ((machine 1).tryExecute q.encode ()).2 = .ok (some minusFive) ∧
    ((machine 2).tryExecute p.encode ()).2 = .ok (some minusHalf) ∧
    ((machine 1).tryExecute p.encode ()).2 = .error (.stackOverflow 1) ∧
    ((machine 3).tryExecute above ()).2 = .ok (some minusHalf) ∧
    ((machine 2).tryExecute above ()).2 = .error (.stackOverflow 2) ∧
    ∃ (log : Unit) (t : State),
      (machine 3).advance 5 (.initial ⟨3⟩ above) () = some (log, t) ∧
      t.cursor.rest = [1] ∧ t.stack.values = [minusHalf, five] := by
  intro one two five minusHalf minusFive e n p q above machine
  have heval : e.eval = minusHalf := by decide +kernel
  have hnegated : n.eval = minusFive := by decide +kernel
  have hreached (limit : Nat) (hlimit : 0 < limit) :
      (machine limit).advance 1 (.initial ⟨limit⟩ above) () =
        some ((), ⟨⟨5, p.encode⟩, ⟨limit, [five]⟩⟩) := by
    obtain ⟨limit, rfl⟩ := Nat.exists_eq_add_of_lt hlimit
    cbv
  have hrest : p.encode = encode (e.compile ++ [.ret]) ++ [] := by rfl
  obtain ⟨hthree, hreturn⟩ :=
    (run_compile_exact (machine 3) e).2 above [] 1 _ () ()
      (hreached 3 (by decide)) hrest
  obtain ⟨htwo, _⟩ :=
    (run_compile_exact (machine 2) e).2 above [] 1 _ () ()
      (hreached 2 (by decide)) hrest
  refine ⟨?_, ?_, ?_, ?_, htwo, ?_⟩
  · rw [(run_compile_exact (machine 1) n).1 q () rfl, hnegated]
    rfl
  · rw [(run_compile_exact (machine 2) e).1 p () rfl, heval]
    rfl
  · exact (run_compile_exact (machine 1) e).1 p () rfl
  · rw [hthree, heval]
    rfl
  · obtain ⟨log, t, ht, hbehind, hvalues⟩ := hreturn (by decide)
    rw [heval] at hvalues
    exact ⟨log, t, ht, hbehind, hvalues⟩

end Machine

end Postfix

end ArithMachine
