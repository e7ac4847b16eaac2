import ArithMachine.Expr
import ArithMachine.Proofs.Refinement

/-!
# Runs and forests

Whatever bytes a machine is given, what it has carried out so far is the program
of a list of expressions, one after the other, and the values on its stack are
the values of these expressions.

The expressions are built by the instructions themselves: `Instruction.grow` is
an instruction on a stack of expressions, and performing an instruction on
values follows it.  The same function reads the expressions back from their
program, so that there is only one such list.

The answer of a return is the value of the last expression.  Everything in front
of it is without effect on the answer.
-/

namespace ArithMachine

section Forests

/-- What an instruction makes of a stack of expressions, with the top first. -/
def Instruction.grow : List Expr → Instruction → Option (List Expr)
  | trees, immediate value => some (.value value :: trees)
  | tree :: trees, negate => some (.negate tree :: trees)
  | right :: left :: trees, binary op =>
      some (.binary op left right :: trees)
  | _, _ => none

/-- The expressions that instructions build on top of those already there. -/
def growAll (trees : List Expr) (is : List Instruction) :
    Option (List Expr) :=
  is.foldlM Instruction.grow trees

theorem growAll_append
    (trees : List Expr) (is js : List Instruction) :
    growAll trees (is ++ js) =
      (growAll trees is).bind fun grown => growAll grown js :=
  List.foldlM_append

theorem growAll_compile
    (e : Expr) (trees : List Expr) :
    growAll trees e.compile = some (e :: trees) := by
  induction e generalizing trees with
  | value v => rfl
  | negate e ih =>
      rw [Expr.compile, growAll_append, ih]
      rfl
  | binary op l r ihl ihr =>
      rw [Expr.compile, growAll_append, growAll_append, ihl,
        Option.bind_some, ihr]
      rfl

theorem growAll_flatMap_compile
    (ts trees : List Expr) :
    growAll trees (ts.flatMap Expr.compile) =
      some (ts.reverse ++ trees) := by
  induction ts generalizing trees with
  | nil => rfl
  | cons t ts ih =>
      rw [List.flatMap_cons, growAll_append, growAll_compile,
        Option.bind_some, ih, List.reverse_cons, List.append_assoc]
      rfl

/-- A program is the program of one list of expressions at most. -/
theorem flatMap_compile_injective
    {ts us : List Expr}
    (h : ts.flatMap Expr.compile = us.flatMap Expr.compile) :
    ts = us := by
  have hgrown : growAll [] (ts.flatMap Expr.compile) = some us.reverse := by
    rw [h, growAll_flatMap_compile, List.append_nil]
  rw [growAll_flatMap_compile, List.append_nil] at hgrown
  exact List.reverse_inj.mp (Option.some.inj hgrown)

/-- Expressions are computed without a return. -/
theorem ret_not_mem_flatMap_compile
    (ts : List Expr) :
    .ret ∉ ts.flatMap Expr.compile := by
  have htree (t : Expr) : .ret ∉ t.compile := by
    induction t with
    | value v => simp [Expr.compile]
    | negate e ih => simpa [Expr.compile] using ih
    | binary op l r ihl ihr => simpa [Expr.compile] using ⟨ihl, ihr⟩
  intro hmem
  obtain ⟨t, _, ht⟩ := List.mem_flatMap.mp hmem
  exact htree t ht

/-- The instructions are those of a list of expressions, and the values their values. -/
structure Forest
    (trees : List Expr) (is : List Instruction) (values : List Value) :
    Prop where
  program : is = trees.reverse.flatMap Expr.compile
  evaluated : values = trees.map Expr.eval

/-- Performing an instruction keeps a forest, and grows it. -/
theorem Forest.grow
    {trees : List Expr} {is : List Instruction}
    {limit : Nat} {values values' : List Value} {i : Instruction}
    (hforest : Forest trees is values)
    (h : Performs limit values i values') :
    ∃ trees', i.grow trees = some trees' ∧
      Forest trees' (is ++ [i]) values' := by
  rcases hforest with ⟨rfl, hvalues⟩
  cases h with
  | @immediate value _ hroom =>
      refine ⟨.value value :: trees, rfl, ?_, ?_⟩
      · simp [Expr.compile]
      · rw [List.map_cons, ← hvalues, Expr.eval]
  | @negate value below =>
      obtain ⟨tree, trees, rfl, rfl, rfl⟩ :=
        List.map_eq_cons_iff.mp hvalues.symm
      refine ⟨.negate tree :: trees, rfl, ?_, rfl⟩
      simp [Expr.compile]
  | @binary op left right below =>
      obtain ⟨r, behind, rfl, rfl, hbehind⟩ :=
        List.map_eq_cons_iff.mp hvalues.symm
      obtain ⟨l, trees, rfl, rfl, rfl⟩ :=
        List.map_eq_cons_iff.mp hbehind
      refine ⟨.binary op l r :: trees, rfl, ?_, ?_⟩
      · simp [Expr.compile]
      · rw [List.map_cons, Expr.eval_binary]

/-- Instructions that were performed from the start are a forest. -/
theorem forest_of_performAll
    {limit : Nat} {is : List Instruction} {s : Stack}
    (h : performAll (.empty limit) is = .ok s) :
    ∃ trees, Forest trees is s.values := by
  refine
    performAll_induction
      (P := fun is s => ∃ trees, Forest trees is s.values)
      (Stack.fits_empty limit) ⟨[], rfl, rfl⟩ ?_ h
  rintro before i u v ⟨trees, hforest⟩ _ hperforms
  obtain ⟨trees', _, hforest'⟩ := hforest.grow hperforms
  exact ⟨trees', hforest'⟩

/-- The instructions that decoding finds in front of the first return. -/
def beforeReturn (bytes : List UInt8) : List Instruction :=
  (Decoding.ofBytes bytes).instructions.takeWhile fun i => i ≠ .ret

namespace Machine

variable {σ τ : Type}

/-- What a run has carried out, and its stack with the bottom first, come from one list of expressions. -/
theorem existsUnique_forest
    {m : Machine σ} {bytes : List UInt8} {turns : Nat}
    {s : State} {log log' : σ}
    (h : m.advance turns (.initial m.config bytes) log =
      some (log', s)) :
    ∃! ts : List Expr,
      m.executed turns (.initial m.config bytes) log =
          ts.flatMap Expr.compile ∧
        s.stack.values.reverse = ts.map Expr.eval := by
  obtain ⟨trees, hprogram, hvalues⟩ :=
    forest_of_performAll (carriesOut_executed h).2.performed
  refine ⟨trees.reverse, ⟨hprogram, ?_⟩, ?_⟩
  · rw [hvalues, List.map_reverse]
  · rintro us ⟨hus, _⟩
    exact flatMap_compile_injective (hus.symm.trans hprogram)

/-- A run that returns has come to the first return, and answers with the last value. -/
theorem beforeReturn_of_tryExecute
    {m : Machine σ} {bytes : List UInt8} {log : σ}
    {value? : Option Value}
    (h : (m.tryExecute bytes log).2 = .ok value?) :
    ∃ ts : List Expr,
      beforeReturn bytes = ts.flatMap Expr.compile ∧
        value? = (ts.map Expr.eval).getLast? := by
  rw [tryExecute_eq] at h
  split at h
  · rename_i answer hperform
    subst h
    obtain ⟨before, i, after, ⟨limit, values⟩, hsplit, hbefore, hstops⟩ :=
      stops_of_performAll (Stack.fits_empty m.config.maxStack) hperform
    obtain ⟨trees, hprogram, hvalues⟩ := forest_of_performAll hbefore
    cases hstops
    refine ⟨trees.reverse, ?_, ?_⟩
    · have hnone : ∀ i ∈ before, decide (i ≠ .ret) = true := by
        rintro i hi
        rw [decide_eq_true_iff]
        rintro rfl
        rw [hprogram] at hi
        exact ret_not_mem_flatMap_compile _ hi
      rw [beforeReturn, hsplit, List.takeWhile_append_of_pos hnone]
      simpa using hprogram
    · rw [hvalues, List.map_reverse, List.getLast?_reverse]
  · split at h <;> cases h

/-- The answer, where the expressions in front of the return are known. -/
theorem tryExecute_eq_of_beforeReturn
    {m : Machine σ} {bytes : List UInt8} {log : σ}
    {value? : Option Value} {ts : List Expr} {t : Expr}
    (h : (m.tryExecute bytes log).2 = .ok value?)
    (hbefore : beforeReturn bytes = (ts ++ [t]).flatMap Expr.compile) :
    value? = some t.eval := by
  obtain ⟨us, hus, rfl⟩ := beforeReturn_of_tryExecute h
  obtain rfl := flatMap_compile_injective (hus.symm.trans hbefore)
  simp

/--
Every run is a run of expressions, and only the last one matters to its answer.

In every state that a run reaches, the bytes read so far are the wire form of
the instructions carried out, and these are the program of exactly one list of
expressions whose values are on the stack, the bottom first.  A value is returned
only if it is that of the last expression in front of the return, and no value
only if nothing is in front of it.  Runs with the same last expression, on
machines with whatever limits, return the same.
-/
theorem run_forest
    (m : Machine σ) (m' : Machine τ) :
    (∀ (bytes : List UInt8) (turns : Nat) (s : State) (log log' : σ),
      m.advance turns (.initial m.config bytes) log = some (log', s) →
      let done := m.executed turns (.initial m.config bytes) log
      done.length = turns ∧
      bytes = encode done ++ s.cursor.rest ∧
      ∃! ts : List Expr,
        done = ts.flatMap Expr.compile ∧
          s.stack.values.reverse = ts.map Expr.eval) ∧
    (∀ (bytes : List UInt8) (log : σ) (v : Value),
      (m.tryExecute bytes log).2 = .ok (some v) →
      ∃ (ts : List Expr) (t : Expr),
        beforeReturn bytes = (ts ++ [t]).flatMap Expr.compile ∧
          v = t.eval) ∧
    (∀ (bytes : List UInt8) (log : σ),
      (m.tryExecute bytes log).2 = .ok none → beforeReturn bytes = []) ∧
    (∀ (bytes bytes' : List UInt8) (log : σ) (log' : τ)
      (value? value?' : Option Value) (ts us : List Expr) (t : Expr),
      (m.tryExecute bytes log).2 = .ok value? →
      (m'.tryExecute bytes' log').2 = .ok value?' →
      beforeReturn bytes = (ts ++ [t]).flatMap Expr.compile →
      beforeReturn bytes' = (us ++ [t]).flatMap Expr.compile →
      value? = value?') := by
  refine ⟨?_, ?_, ?_, ?_⟩
  · intro bytes turns s log log' h
    obtain ⟨hlength, hcarries⟩ := carriesOut_executed h
    exact ⟨hlength, hcarries.read, existsUnique_forest h⟩
  · intro bytes log v h
    obtain ⟨ts, hbefore, hlast⟩ := beforeReturn_of_tryExecute h
    obtain ⟨front, hfront⟩ := List.getLast?_eq_some_iff.mp hlast.symm
    obtain ⟨ts, last, rfl, _, hvalue⟩ := List.map_eq_append_iff.mp hfront
    obtain ⟨t, rfl, rfl⟩ := List.map_eq_singleton_iff.mp hvalue
    exact ⟨ts, t, hbefore, rfl⟩
  · intro bytes log h
    obtain ⟨ts, hbefore, hlast⟩ := beforeReturn_of_tryExecute h
    have hnil : ts = [] :=
      List.map_eq_nil_iff.mp (List.getLast?_eq_none_iff.mp hlast.symm)
    rw [hbefore, hnil, List.flatMap_nil]
  · intro bytes bytes' log log' value? value?' ts us t h h' hbefore hbefore'
    rw [tryExecute_eq_of_beforeReturn h hbefore,
      tryExecute_eq_of_beforeReturn h' hbefore']

/-- A one and minus five, minus five alone on a lower stack, and nothing at all. -/
theorem run_forest_surplus :
    let m : Machine Unit := ⟨⟨2⟩, .silent⟩
    let m' : Machine Unit := ⟨⟨1⟩, .silent⟩
    let one : Value := ⟨0x3f800000⟩
    let five : Value := ⟨0x40a00000⟩
    let bytes : List UInt8 := [2, 0, 0, 128, 63, 2, 0, 0, 160, 64, 3, 1, 9]
    let bytes' : List UInt8 := [2, 0, 0, 160, 64, 3, 1]
    (∃! ts : List Expr,
      [.immediate one, .immediate five, .negate] =
          ts.flatMap Expr.compile ∧
        [one, five.negate] = ts.map Expr.eval) ∧
    (∃ (ts : List Expr) (t : Expr),
      [.immediate one, .immediate five, .negate] =
          (ts ++ [t]).flatMap Expr.compile ∧
        five.negate = t.eval) ∧
    beforeReturn [1] = [] ∧
    (m.tryExecute bytes ()).2 = (m'.tryExecute bytes' ()).2 := by
  intro m m' one five bytes bytes'
  obtain ⟨hstates, hvalue, hnone, hlast⟩ := run_forest m m'
  have hreached :
      m.advance 3 (.initial m.config bytes) () =
        some ((), ⟨⟨11, [1, 9]⟩, ⟨2, [five.negate, one]⟩⟩) := by cbv
  have hdone :
      m.executed 3 (.initial m.config bytes) () =
        [.immediate one, .immediate five, .negate] := by cbv
  have hbefore :
      beforeReturn bytes =
        [.immediate one, .immediate five, .negate] := by cbv
  have hbefore' :
      beforeReturn bytes' = [.immediate five, .negate] := by cbv
  have hanswer :
      (m.tryExecute bytes ()).2 = .ok (some five.negate) := by cbv
  have hanswer' :
      (m'.tryExecute bytes' ()).2 = .ok (some ⟨0xc0a00000⟩) := by cbv
  refine ⟨?_, ?_, ?_, ?_⟩
  · obtain ⟨_, _, hforest⟩ := hstates bytes 3 _ () () hreached
    rwa [hdone] at hforest
  · rw [← hbefore]
    exact hvalue bytes () five.negate hanswer
  · exact hnone [1] () (by cbv)
  · have hsame :=
      hlast bytes bytes' () () _ _ [.value one] []
        (.negate (.value five)) hanswer hanswer' hbefore hbefore'
    rw [hanswer, hanswer', hsame]

end Machine

end Forests

end ArithMachine
