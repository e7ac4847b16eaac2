import ArithMachine.Proofs.Performing
import ArithMachine.Stack.History

/-!
# Pushes and pops of a history

This module says what a stack hands out over a whole history, in terms of the
history alone.

Each pop that finds a value has its source: the latest push before it that was
accepted and is the source of no earlier pop.  `Sources` says so of an assignment of
places to places, and there is exactly one.  `Ledger` is the invariant that carries
the induction over a history.  It keeps a list of the pushes that are the source of
no pop yet, the latest first, and says that the values on the stack are theirs.  A
push adds its place to this list, and a pop takes the first place off.
-/

namespace ArithMachine

namespace Stack

section Histories

/-- The value that was taken in or handed out at a place of a history. -/
def valueAt? (value? : Exchange → Option Value) (past : List Exchange) (k : Nat) :
    Option Value :=
  past[k]?.bind value?

/-- The value of the push at a place, if it was accepted. -/
def pushedAt? : List Exchange → Nat → Option Value :=
  valueAt? Exchange.pushed?

/-- The value that the pop at a place has found. -/
def poppedAt? : List Exchange → Nat → Option Value :=
  valueAt? Exchange.popped?

/-- The accepted pushes before a place that are the source of no pop before it. -/
def openBefore (past : List Exchange) (source : Nat → Option Nat) (k : Nat) : Set Nat :=
  {j | j < k ∧ (pushedAt? past j).isSome = true ∧
    ∀ earlier < k, source earlier ≠ some j}

/-- An assignment of a push to each pop that has found a value: the latest that is open to it. -/
structure Sources (past : List Exchange) (source : Nat → Option Nat) : Prop where
  isSome_eq : ∀ k, (source k).isSome = (poppedAt? past k).isSome
  latest :
    ∀ {k j : Nat}, source k = some j →
      IsGreatest (openBefore past source k) j
  value_eq :
    ∀ {k j : Nat}, source k = some j → poppedAt? past k = pushedAt? past j

/-- The sources of the pops, and the pushes that no pop stems from. -/
structure Ledger
    (past : List Exchange) (values : List Value)
    (source : Nat → Option Nat) (unpopped : List Nat) : Prop where
  sources : Sources past source
  sorted : unpopped.Pairwise (· > ·)
  mem_iff :
    ∀ j, j ∈ unpopped ↔
      (pushedAt? past j).isSome = true ∧ ∀ k, source k ≠ some j
  values_eq : unpopped.map (pushedAt? past) = values.map some

section Places

variable {value? : Exchange → Option Value}
variable {past : List Exchange} {k : Nat}

theorem valueAt?_of_length_le
    (h : past.length ≤ k) :
    valueAt? value? past k = none := by
  rw [valueAt?, List.getElem?_eq_none h]
  rfl

theorem valueAt?_concat_of_ne
    (x : Exchange) (h : k ≠ past.length) :
    valueAt? value? (past ++ [x]) k = valueAt? value? past k := by
  rcases Nat.lt_or_gt_of_ne h with hless | hgreater
  · rw [valueAt?, List.getElem?_append_left hless, valueAt?]
  · have hbehind : (past ++ [x]).length ≤ k := by
      rw [List.length_append]
      exact hgreater
    rw [valueAt?_of_length_le hbehind,
      valueAt?_of_length_le (Nat.le_of_lt hgreater)]

theorem valueAt?_concat_length
    (past : List Exchange) (x : Exchange) :
    valueAt? value? (past ++ [x]) past.length = value? x := by
  rw [valueAt?, List.getElem?_concat_length]
  rfl

theorem lt_length_of_isSome
    (h : (valueAt? value? past k).isSome = true) :
    k < past.length := by
  by_contra hbehind
  rw [valueAt?_of_length_le (Nat.le_of_not_lt hbehind)] at h
  cases h

end Places

theorem openBefore_congr
    {past past' : List Exchange} {source source' : Nat → Option Nat} {k : Nat}
    (hpushed : ∀ j < k, pushedAt? past j = pushedAt? past' j)
    (hsource : ∀ j < k, source j = source' j) :
    openBefore past source k = openBefore past' source' k := by
  ext j
  refine and_congr_right fun hj => and_congr ?_ ?_
  · rw [hpushed j hj]
  · exact forall₂_congr fun earlier hearlier => by rw [hsource earlier hearlier]

namespace Sources

variable {past : List Exchange} {source other : Nat → Option Nat}
variable {x : Exchange} {value : Value} {k j : Nat}

theorem lt_length
    (h : Sources past source) (hk : source k = some j) :
    k < past.length := by
  have hpopped : (valueAt? Exchange.popped? past k).isSome = true := by
    rw [← poppedAt?, ← h.isSome_eq, hk]
    rfl
  exact lt_length_of_isSome hpopped

theorem eq_none
    (h : Sources past source) (hk : past.length ≤ k) :
    source k = none := by
  cases hsource : source k with
  | none => rfl
  | some j => exact absurd (h.lt_length hsource) (Nat.not_lt.mpr hk)

/-- The source of a pop stands before it. -/
theorem lt
    (h : Sources past source) (hk : source k = some j) :
    j < k :=
  (h.latest hk).1.1

/-- Pops have their sources in one way only. -/
theorem unique
    (h : Sources past source) (hother : Sources past other) :
    source = other := by
  funext k
  -- What is open to a pop is known from the sources of the pops before it.
  induction k using Nat.strong_induction_on with
  | h k ih =>
    have hopen : openBefore past source k = openBefore past other k :=
      openBefore_congr (fun _ _ => rfl) ih
    have hsome : (source k).isSome = (other k).isSome := by
      rw [h.isSome_eq, hother.isSome_eq]
    cases hk : source k with
    | none =>
        rw [hk] at hsome
        exact (Option.isSome_eq_false_iff.mp hsome.symm |>
          Option.isNone_iff_eq_none.mp).symm
    | some j =>
        rw [hk] at hsome
        obtain ⟨i, hi⟩ := Option.isSome_iff_exists.mp hsome.symm
        have hgreatest := h.latest hk
        rw [hopen] at hgreatest
        rw [hi, hgreatest.unique (hother.latest hi)]

theorem empty : Sources [] fun _ => none where
  isSome_eq _ := rfl
  latest h := by cases h
  value_eq h := by cases h

/-- An exchange that hands out no value leaves the sources as they are. -/
theorem concat
    (h : Sources past source) (hpop : x.popped? = none) :
    Sources (past ++ [x]) source where
  isSome_eq := by
    intro k
    by_cases hk : k = past.length
    · rw [hk, poppedAt?, valueAt?_concat_length, hpop, h.eq_none le_rfl]
      rfl
    · rw [poppedAt?, valueAt?_concat_of_ne x hk]
      exact h.isSome_eq k
  latest := by
    intro k j hk
    have hlength := h.lt_length hk
    have hopen : openBefore (past ++ [x]) source k = openBefore past source k :=
      openBefore_congr (fun i hi => valueAt?_concat_of_ne x (by omega))
        (fun _ _ => rfl)
    rw [hopen]
    exact h.latest hk
  value_eq := by
    intro k j hk
    have hlength := h.lt_length hk
    have hless := h.lt hk
    rw [poppedAt?, pushedAt?, valueAt?_concat_of_ne x (by omega),
      valueAt?_concat_of_ne x (by omega)]
    exact h.value_eq hk

/-- A pop that hands out the value of the latest open push has this push as its source. -/
theorem concat_pop
    (h : Sources past source)
    (hpop : x.popped? = some value)
    (hgreatest : IsGreatest (openBefore past source past.length) j)
    (hvalue : pushedAt? past j = some value) :
    Sources (past ++ [x])
      (Function.update source past.length (some j)) := by
  have hbefore : ∀ k ≤ past.length,
      openBefore (past ++ [x])
          (Function.update source past.length (some j)) k =
        openBefore past source k :=
    fun k hk => openBefore_congr
      (fun i hi => valueAt?_concat_of_ne x (by omega))
      (fun i hi => Function.update_of_ne (by omega) _ _)
  refine ⟨?_, ?_, ?_⟩
  · intro k
    by_cases hk : k = past.length
    · rw [hk, Function.update_self, poppedAt?, valueAt?_concat_length, hpop]
      rfl
    · rw [Function.update_of_ne hk, poppedAt?, valueAt?_concat_of_ne x hk]
      exact h.isSome_eq k
  · intro k i hk
    by_cases hlast : k = past.length
    · subst hlast
      rw [Function.update_self] at hk
      cases hk
      rw [hbefore _ le_rfl]
      exact hgreatest
    · rw [Function.update_of_ne hlast] at hk
      rw [hbefore k (Nat.le_of_lt (h.lt_length hk))]
      exact h.latest hk
  · intro k i hk
    by_cases hlast : k = past.length
    · subst hlast
      rw [Function.update_self] at hk
      cases hk
      have hj : j < past.length := hgreatest.1.1
      rw [poppedAt?, pushedAt?, valueAt?_concat_length,
        valueAt?_concat_of_ne x (Nat.ne_of_lt hj), hpop]
      exact hvalue.symm
    · rw [Function.update_of_ne hlast] at hk
      have hless := h.lt hk
      have hlength := h.lt_length hk
      rw [poppedAt?, pushedAt?, valueAt?_concat_of_ne x hlast,
        valueAt?_concat_of_ne x (by omega)]
      exact h.value_eq hk

end Sources

namespace Ledger

variable {past : List Exchange} {values : List Value} {value : Value}
variable {source : Nat → Option Nat} {unpopped : List Nat} {x : Exchange}

theorem empty : Ledger [] [] (fun _ => none) [] where
  sources := .empty
  sorted := List.Pairwise.nil
  mem_iff := by simp [pushedAt?, valueAt?]
  values_eq := rfl

theorem lt_length
    {j : Nat}
    (h : Ledger past values source unpopped) (hj : j ∈ unpopped) :
    j < past.length :=
  lt_length_of_isSome ((h.mem_iff j).mp hj).1

/-- The places of the ledger keep their values. -/
theorem map_concat
    (h : Ledger past values source unpopped) (x : Exchange) :
    unpopped.map (pushedAt? (past ++ [x])) = values.map some := by
  rw [← h.values_eq]
  exact List.map_congr_left fun j hj =>
    valueAt?_concat_of_ne x (Nat.ne_of_lt (h.lt_length hj))

theorem push
    (h : Ledger past values source unpopped)
    (hpush : x.pushed? = some value) (hpop : x.popped? = none) :
    Ledger (past ++ [x]) (value :: values) source
      (past.length :: unpopped) where
  sources := h.sources.concat hpop
  sorted := List.pairwise_cons.mpr ⟨fun _ hj => h.lt_length hj, h.sorted⟩
  mem_iff := by
    intro j
    rw [List.mem_cons, h.mem_iff]
    by_cases hj : j = past.length
    · have hfresh : ∀ k, source k ≠ some j := by
        intro k hk
        have hless := h.sources.lt hk
        have hlength := h.sources.lt_length hk
        omega
      simp [hj, pushedAt?, valueAt?_concat_length, hpush, hj ▸ hfresh]
    · simp [hj, pushedAt?, valueAt?_concat_of_ne x hj]
  values_eq := by
    rw [List.map_cons, h.map_concat, pushedAt?, valueAt?_concat_length, hpush,
      List.map_cons]

/-- An exchange that neither takes in nor hands out a value leaves the ledger as it is. -/
theorem idle
    (h : Ledger past values source unpopped)
    (hpush : x.pushed? = none) (hpop : x.popped? = none) :
    Ledger (past ++ [x]) values source unpopped where
  sources := h.sources.concat hpop
  sorted := h.sorted
  mem_iff := by
    intro j
    rw [h.mem_iff]
    by_cases hj : j = past.length
    · simp [hj, pushedAt?, valueAt?_concat_length, hpush,
        valueAt?_of_length_le]
    · rw [pushedAt?, valueAt?_concat_of_ne x hj]
  values_eq := h.map_concat x

/-- Behind a history, the places of the ledger are open. -/
theorem mem_openBefore_iff
    {j : Nat}
    (h : Ledger past values source unpopped) :
    j ∈ openBefore past source past.length ↔ j ∈ unpopped := by
  rw [h.mem_iff]
  constructor
  · rintro ⟨-, hpushed, hopen⟩
    exact ⟨hpushed, fun k hk => hopen k (h.sources.lt_length hk) hk⟩
  · rintro ⟨hpushed, hopen⟩
    exact ⟨lt_length_of_isSome hpushed, hpushed, fun k _ => hopen k⟩

theorem isGreatest
    {j : Nat} {rest : List Nat}
    (h : Ledger past values source (j :: rest)) :
    IsGreatest (openBefore past source past.length) j := by
  refine ⟨h.mem_openBefore_iff.mpr List.mem_cons_self, fun i hi => ?_⟩
  rcases List.mem_cons.mp (h.mem_openBefore_iff.mp hi) with rfl | hi
  · exact le_rfl
  · exact Nat.le_of_lt ((List.pairwise_cons.mp h.sorted).1 i hi)

/-- A pop has the first place of the ledger as its source. -/
theorem pop
    {j : Nat} {rest : List Nat}
    (h : Ledger past (value :: values) source (j :: rest))
    (hpush : x.pushed? = none) (hpop : x.popped? = some value) :
    Ledger (past ++ [x]) values
      (Function.update source past.length (some j)) rest := by
  obtain ⟨hfirst, hsorted⟩ := List.pairwise_cons.mp h.sorted
  have hvalue : pushedAt? past j = some value :=
    (List.cons.inj h.values_eq).1
  refine ⟨h.sources.concat_pop hpop h.isGreatest hvalue, hsorted, ?_,
    (List.cons.inj (h.map_concat x)).2⟩
  intro i
  have hmem := h.mem_iff i
  rw [List.mem_cons] at hmem
  constructor
  · intro hi
    obtain ⟨hpushed, hopen⟩ := hmem.mp (Or.inr hi)
    have hless := lt_length_of_isSome hpushed
    refine ⟨?_, fun k hk => ?_⟩
    · rwa [pushedAt?, valueAt?_concat_of_ne x (Nat.ne_of_lt hless)]
    · by_cases hlast : k = past.length
      · rw [hlast, Function.update_self] at hk
        cases hk
        exact Nat.lt_irrefl _ (hfirst _ hi)
      · rw [Function.update_of_ne hlast] at hk
        exact hopen k hk
  · rintro ⟨hpushed, hopen⟩
    have hplace : i ≠ past.length := by
      rintro rfl
      rw [pushedAt?, valueAt?_concat_length, hpush] at hpushed
      cases hpushed
    rw [pushedAt?, valueAt?_concat_of_ne x hplace] at hpushed
    have hother : i ≠ j := by
      rintro rfl
      exact hopen past.length (Function.update_self _ _ _)
    refine (hmem.mpr ⟨hpushed, fun k hk => hopen k ?_⟩).resolve_left hother
    rwa [Function.update_of_ne (Nat.ne_of_lt (h.sources.lt_length hk))]

end Ledger

section Runs

/-- The four ways in which a stack meets a request. -/
inductive Meets (s : Stack) : Request → Response → Stack → Prop
  | accept
      {value : Value}
      (hroom : s.height < s.limit) :
      Meets s (.push value) .accepted ⟨s.limit, value :: s.values⟩
  | refuse
      {value : Value}
      (hfull : s.limit ≤ s.height) :
      Meets s (.push value) (.refused (.stackOverflow s.limit)) s
  | handOut
      {value : Value} {below : List Value}
      (hvalues : s.values = value :: below) :
      Meets s .pop (.popped (some value)) ⟨s.limit, below⟩
  | nothing
      (hvalues : s.values = []) :
      Meets s .pop (.popped none) s

theorem meets_perform (s : Stack) (request : Request) :
    Meets s request (s.perform request).1 (s.perform request).2 := by
  rcases s with ⟨limit, values⟩
  cases request with
  | push value =>
      by_cases hfull : limit ≤ values.length
      · have hperform :
            (Stack.mk limit values).perform (.push value) =
              (.refused (.stackOverflow limit), ⟨limit, values⟩) := by
          simp [perform, Stack.offer, hfull]
        rw [hperform]
        exact .refuse hfull
      · have hperform :
            (Stack.mk limit values).perform (.push value) =
              (.accepted, ⟨limit, value :: values⟩) := by
          simp [perform, Stack.offer, hfull]
        rw [hperform]
        exact .accept (Nat.lt_of_not_le hfull)
  | pop =>
      cases values with
      | nil => exact .nothing rfl
      | cons value below => exact .handOut rfl

/-- What holds at the start and is kept by each exchange holds behind a history. -/
theorem history_induction
    {P : List Exchange → Stack → Prop} {s : Stack}
    (hstart : P [] s)
    (hstep :
      ∀ {past : List Exchange} {t u : Stack}
        {request : Request} {response : Response},
        P past t → Meets t request response u →
        P (past ++ [⟨request, response⟩]) u)
    (requests : List Request) :
    P (s.history requests).1 (s.history requests).2 := by
  have hrest :
      ∀ (requests : List Request) (past : List Exchange) (t : Stack),
        P past t →
        P (past ++ (t.history requests).1) (t.history requests).2 := by
    intro requests
    induction requests with
    | nil =>
        intro past t hpast
        rwa [history, List.append_nil]
    | cons request requests ih =>
        intro past t hpast
        have hnext := ih _ _ (hstep hpast (t.meets_perform request))
        rwa [List.append_assoc] at hnext
  exact hrest requests [] s hstart

theorem fits_history
    {s : Stack}
    (hfits : s.Fits) (requests : List Request) :
    (s.history requests).2.limit = s.limit ∧
      (s.history requests).2.Fits := by
  refine history_induction
    (P := fun _ t => t.limit = s.limit ∧ t.Fits) ⟨rfl, hfits⟩ ?_ requests
  rintro past t u request response ⟨hlimit, ht⟩ hmeets
  cases hmeets with
  | accept hroom => exact ⟨hlimit, hroom⟩
  | refuse => exact ⟨hlimit, ht⟩
  | @handOut value below hvalues =>
      refine ⟨hlimit, ?_⟩
      have hheight : below.length + 1 ≤ t.limit := by
        simpa [Fits, height, hvalues] using ht
      exact Nat.le_of_succ_le hheight
  | nothing => exact ⟨hlimit, ht⟩

/-- The stack holds as many values as were taken in and not handed out. -/
theorem height_history (limit : Nat) (requests : List Request) :
    ((empty limit).history requests).2.height +
        ((empty limit).history requests).1.countP (·.popped?.isSome) =
      ((empty limit).history requests).1.countP (·.pushed?.isSome) := by
  refine history_induction
    (P := fun past t =>
      t.height + past.countP (·.popped?.isSome) =
        past.countP (·.pushed?.isSome)) rfl ?_ requests
  intro past t u request response ht hmeets
  rw [List.countP_append, List.countP_append]
  cases hmeets with
  | accept hroom =>
      simp [height, Exchange.pushed?, Exchange.popped?] at ht ⊢
      omega
  | refuse => simpa [Exchange.pushed?, Exchange.popped?] using ht
  | handOut hvalues =>
      simp [height, hvalues, Exchange.pushed?, Exchange.popped?] at ht ⊢
      omega
  | nothing => simpa [Exchange.pushed?, Exchange.popped?] using ht

theorem exists_ledger (limit : Nat) (requests : List Request) :
    ∃ (source : Nat → Option Nat) (unpopped : List Nat),
      Ledger ((empty limit).history requests).1
        ((empty limit).history requests).2.values source unpopped := by
  refine history_induction
    (P := fun past t =>
      ∃ source unpopped, Ledger past t.values source unpopped)
    ⟨_, _, .empty⟩ ?_ requests
  rintro past t u request response ⟨source, unpopped, h⟩ hmeets
  cases hmeets with
  | accept => exact ⟨_, _, h.push rfl rfl⟩
  | refuse => exact ⟨_, _, h.idle rfl rfl⟩
  | handOut hvalues =>
      rw [hvalues] at h
      cases unpopped with
      | nil => exact absurd h.values_eq (by simp)
      | cons j rest => exact ⟨_, _, h.pop rfl rfl⟩
  | nothing => exact ⟨_, _, h.idle rfl rfl⟩

theorem map_request_history (s : Stack) (requests : List Request) :
    (s.history requests).1.map Exchange.request = requests := by
  induction requests generalizing s with
  | nil => rfl
  | cons request requests ih => rw [history, List.map_cons, ih]

theorem take_history (s : Stack) (requests : List Request) (k : Nat) :
    (s.history requests).1.take k = (s.history (requests.take k)).1 := by
  induction requests generalizing s k with
  | nil => simp [history]
  | cons request requests ih =>
      cases k with
      | zero => rfl
      | succ k =>
          rw [history, List.take_succ_cons, ih, List.take_succ_cons, history]

/-- A place of a history is a request to the stack that the requests before it have left. -/
theorem history_at
    {requests : List Request} {request : Request} {k : Nat}
    (s : Stack) (h : requests[k]? = some request) :
    (s.history requests).1[k]? =
        some ⟨request,
          ((s.history (requests.take k)).2.perform request).1⟩ ∧
      (s.history (requests.take (k + 1))).2 =
        ((s.history (requests.take k)).2.perform request).2 := by
  induction requests generalizing s k with
  | nil => cases h
  | cons first requests ih =>
      cases k with
      | zero =>
          cases h
          exact ⟨rfl, rfl⟩
      | succ k => exact ih (s.perform first).2 h

/-- Pops hand out the values from the top on, and then nothing. -/
theorem history_pops (limit : Nat) (values : List Value) (more : Nat) :
    ((Stack.mk limit values).history
        (List.replicate (values.length + more) .pop)).1.map
          Exchange.response =
      (values.map some).map .popped ++
        List.replicate more (.popped none) := by
  induction values with
  | nil =>
      induction more with
      | zero => rfl
      | succ more ih =>
          rw [← Nat.add_assoc, List.replicate_succ, List.replicate_succ]
          exact congrArg (Response.popped none :: ·) ih
  | cons value below ih =>
      rw [List.length_cons, Nat.add_right_comm, List.replicate_succ]
      exact congrArg (Response.popped (some value) :: ·) ih

end Runs

/--
A stack with a limit hands out what it was given, last in first out, over every
history of pushes and pops.

At each place of a history the stack holds at most as many values as its limit,
namely those that were accepted less those that were handed out.  A push is refused
exactly when the stack is full, with the fault that names the limit, and the stack
stays as it was.  A pop finds nothing exactly when the stack is empty.

Every other pop has one source, the latest push before it that was accepted and is
the source of no earlier pop, and hands out the value of its source.  Pops at the
end hand out the values of the accepted pushes that are the source of no pop, each
once and the latest first, and then nothing.
-/
theorem history_bounded_lifo (limit : Nat) (requests : List Request) :
    let past := ((empty limit).history requests).1
    let after (k : Nat) := ((empty limit).history (requests.take k)).2
    past.map Exchange.request = requests ∧
    (∀ k : Nat,
      (after k).height ≤ limit ∧
        (after k).height + (past.take k).countP (·.popped?.isSome) =
          (past.take k).countP (·.pushed?.isSome)) ∧
    (∀ (k : Nat) (value : Value),
      requests[k]? = some (.push value) →
        if (after k).height = limit then
          past[k]? =
              some ⟨.push value, .refused (.stackOverflow limit)⟩ ∧
            after (k + 1) = after k
        else
          past[k]? = some ⟨.push value, .accepted⟩) ∧
    (∀ k : Nat,
      requests[k]? = some .pop →
        ∃ value? : Option Value,
          past[k]? = some ⟨.pop, .popped value?⟩ ∧
          (value? = none ↔ (after k).height = 0)) ∧
    ∃! source : Nat → Option Nat,
      Sources past source ∧
      ∃ unpopped : List Nat,
        unpopped.Pairwise (· > ·) ∧
        (∀ j : Nat,
          j ∈ unpopped ↔
            (pushedAt? past j).isSome = true ∧
              ∀ k : Nat, source k ≠ some j) ∧
        ∀ more : Nat,
          ((after requests.length).history
              (List.replicate (unpopped.length + more) .pop)).1.map
                Exchange.response =
            (unpopped.map (pushedAt? past)).map .popped ++
              List.replicate more (.popped none) := by
  intro past after
  have hafter (k : Nat) : (after k).limit = limit ∧ (after k).Fits :=
    fits_history (fits_empty limit) _
  have hplaces (k : Nat) (request : Request) (hk : requests[k]? = some request) :
      past[k]? = some ⟨request, ((after k).perform request).1⟩ ∧
        after (k + 1) = ((after k).perform request).2 :=
    history_at (empty limit) hk
  refine ⟨map_request_history _ _, ?_, ?_, ?_, ?_⟩
  · intro k
    obtain ⟨hlimit, hfits⟩ := hafter k
    refine ⟨hlimit ▸ hfits, ?_⟩
    rw [take_history]
    exact height_history limit (requests.take k)
  · intro k value hk
    obtain ⟨hlimit, hfits⟩ := hafter k
    obtain ⟨hplace, hnext⟩ := hplaces k _ hk
    have hmeets := (after k).meets_perform (.push value)
    generalize (after k).perform (.push value) = found at hplace hnext hmeets
    rcases found with ⟨response, t⟩
    cases hmeets with
    | accept hroom =>
        rw [hlimit] at hroom
        rw [if_neg (Nat.ne_of_lt hroom)]
        exact hplace
    | refuse hfull =>
        rw [hlimit] at hplace
        rw [if_pos ((Nat.le_antisymm hfits hfull).trans hlimit)]
        exact ⟨hplace, hnext⟩
  · intro k hk
    obtain ⟨hplace, -⟩ := hplaces k _ hk
    have hmeets := (after k).meets_perform .pop
    generalize (after k).perform .pop = found at hplace hmeets
    rcases found with ⟨response, t⟩
    cases hmeets with
    | handOut hvalues => exact ⟨_, hplace, by simp [height, hvalues]⟩
    | nothing hvalues => exact ⟨_, hplace, by simp [height, hvalues]⟩
  · obtain ⟨source, unpopped, h⟩ := exists_ledger limit requests
    have hlast : (after requests.length) = ((empty limit).history requests).2 := by
      simp only [after, List.take_length]
    refine ⟨source, ⟨h.sources, unpopped, h.sorted, h.mem_iff, ?_⟩, ?_⟩
    · intro more
      have hlength := congrArg List.length h.values_eq
      rw [List.length_map, List.length_map] at hlength
      rw [h.values_eq, hlength, hlast]
      exact history_pops _ _ more
    · rintro other ⟨hother, -⟩
      exact hother.unique h.sources

/-- With room for one value, the second push is refused, and the pop hands out the first. -/
theorem history_bounded_lifo_full :
    let one : Value := ⟨0x3f800000⟩
    let two : Value := ⟨0x40000000⟩
    let requests : List Request := [.push one, .push two, .pop, .pop]
    let past := ((empty 1).history requests).1
    requests[1]? = some (.push two) ∧
    ((empty 1).history (requests.take 1)).2.height = 1 ∧
    past[1]? = some ⟨.push two, .refused (.stackOverflow 1)⟩ ∧
    past.map Exchange.response =
      [.accepted, .refused (.stackOverflow 1), .popped (some one),
        .popped none] := by
  intro one two requests past
  have hfull : ((empty 1).history (requests.take 1)).2.height = 1 := by decide
  have hsecond := (history_bounded_lifo 1 requests).2.2.1 1 two rfl
  rw [if_pos hfull] at hsecond
  exact ⟨rfl, hfull, hsecond.1, by decide⟩

end Histories

end Stack

end ArithMachine
