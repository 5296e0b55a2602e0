import UnifyPrototype.ChainFirst.Stages

/-!
# `runLast`

`runLast` makes the tasks of all stages but the first one, whose functor it calls itself. A stage
whose condition is false passes a copy of its holder on, so the original is there until the functor
of the first stage has returned and the calls of `runLast` return one after another.
-/

namespace UnifyPrototype.ChainFirst

open UnifyPrototype.Utils

variable {N E : Type} {s : State N E} {u v : ℕ}

/-! ## The model -/

/-- `runLast` after it has called the functor of the first stage, with a holder of the task `first`.
`originals` are the tasks of the holders that its calls still have, in the order in which these are
destroyed. -/
structure Running (N E : Type) where
  chain : State N E
  first : ℕ
  originals : List ℕ := []

/-- `runLast`: given the task of the holder `iV`. -/
def WaitingTaskChain.runLast : WaitingTaskChain N → State N E → ℕ → Running N E
  | .single f, s, iH => { chain := s.handle f none iH, first := iH }
  | .cons f l, s, iV =>
    let (s, h) := s.makeWaitingTask f iV
    l.runLast s h
  | .conditional true f l, s, iV =>
    let (s, h) := s.makeWaitingTask f iV
    l.runLast s h
  | .conditional false _ l, s, iV =>
    let r := l.runLast (s.increment iV) iV
    { r with originals := r.originals ++ [iV] }

/-- `chain | runLast(...)` with a holder of the task 0. -/
def WaitingTaskChain.startRunLast (chain : WaitingTaskChain N) : Running N E :=
  chain.runLast initial 0

/-- The moves of the chain, and the return of a call of `runLast`, which destroys its holder. -/
inductive RunLabel (E : Type)
  | chain (b : Label E)
  | unwind
deriving DecidableEq, Repr

/-- One step. The calls of `runLast` return when the handler of the first stage is over, which has a
holder of the task `first` until then; a functor of two arguments may be over at any time. -/
def Running.step (r : Running N E) : RunLabel E → Option (Running N E)
  | .chain b => (ChainFirst.step r.chain b).map fun s => { r with chain := s }
  | .unwind =>
    match r.originals with
    | [] => none
    | t :: rest =>
      if r.chain.points.any fun p => p.task = r.first then none
      else some { r with chain := r.chain.decrement t, originals := rest }

/-! ## Copies of holders -/

lemma increment_comm (s : State N E) (u v : ℕ) :
    (s.increment u).increment v = (s.increment v).increment u := by
  rcases eq_or_ne u v with rfl | hne
  · rfl
  · unfold State.increment State.setTask
    simp only [Function.update_of_ne hne.symm, Function.update_of_ne hne]
    rw [Function.update_comm hne]

/-- A copy that is destroyed while the original is there. -/
lemma decrement_increment (hone : 1 ≤ (s.task v).refCount) : (s.increment v).decrement v = s := by
  have hcount : 1 < ((s.increment v).task v).refCount := by
    show 1 < (Function.update s.task v _ v).refCount
    rw [Function.update_self]
    exact Nat.lt_add_of_pos_left hone
  rw [decrement_of_lt hcount]
  unfold State.increment State.setTask
  simp only [Function.update_self, Function.update_idem]
  have hback : ({ (s.task v).incrementRefCount with
      refCount := (s.task v).incrementRefCount.refCount - 1 } : WaitingTask.Task E) = s.task v := rfl
  rw [hback, Function.update_eq_self]

/-- A holder more of another task changes nothing for the one that is made. -/
lemma makeWaitingTask_increment (hu : u < s.size) (f : Handler N) (v : ℕ) :
    (s.increment u).makeWaitingTask f v
      = ((s.makeWaitingTask f v).1.increment u, (s.makeWaitingTask f v).2) := by
  have hne : u ≠ s.size := by omega
  unfold State.makeWaitingTask State.increment State.setTask
  simp only [Function.update_of_ne hne]
  rw [Function.update_comm hne]

/-- `makeWaitingTask` makes a task with one holder, which is the newest. -/
lemma refCount_makeWaitingTask (s : State N E) (f : Handler N) (v : ℕ) :
    1 ≤ ((s.makeWaitingTask f v).1.task (s.makeWaitingTask f v).2).refCount := by
  show 1 ≤ (Function.update s.task s.size _ s.size).refCount
  rw [Function.update_self]

/-- The holder that `lastTask` is given is there afterwards. -/
lemma refCount_lastTask (chain : WaitingTaskChain N) (hv : v + 1 = s.size)
    (hone : 1 ≤ (s.task v).refCount) : 1 ≤ ((chain.lastTask s v).1.task v).refCount := by
  rw [((built_lastTask chain hv hone).old v (by omega)).2]
  exact hone

/-- A copy of an older holder is not in the way of `lastTask`. -/
lemma lastTask_increment (chain : WaitingTaskChain N) (hv : v + 1 = s.size)
    (hone : 1 ≤ (s.task v).refCount) (hu : u < s.size) :
    chain.lastTask (s.increment u) v
      = ((chain.lastTask s v).1.increment u, (chain.lastTask s v).2) := by
  induction chain generalizing s v u with
  | single f => exact makeWaitingTask_increment hu f v
  | cons f l ih =>
    have hrest := ih (s := (s.makeWaitingTask f v).1) rfl (refCount_makeWaitingTask s f v)
      (Nat.lt_succ_of_lt hu)
    rw [WaitingTaskChain.lastTask, makeWaitingTask_increment hu]
    exact hrest
  | conditional condition f l ih =>
    cases condition with
    | true =>
      have hrest := ih (s := (s.makeWaitingTask f v).1) rfl (refCount_makeWaitingTask s f v)
        (Nat.lt_succ_of_lt hu)
      rw [WaitingTaskChain.lastTask, makeWaitingTask_increment hu]
      exact hrest
    | false =>
      -- both copies move behind `lastTask`, where one of them is destroyed
      have hcopy : 1 ≤ ((s.increment u).task v).refCount := by
        show 1 ≤ (Function.update s.task u (s.task u).incrementRefCount v).refCount
        by_cases hvu : v = u
        · subst hvu
          rw [Function.update_self]
          exact Nat.le_add_left 1 _
        · rw [Function.update_of_ne hvu]
          exact hone
      have hlast : 1 ≤ (((l.lastTask s v).1.increment u).task v).refCount := by
        have hrest := refCount_lastTask l (s := s.increment u) hv hcopy
        rw [ih hv hone hu] at hrest
        exact hrest
      have hboth := ih (s := s.increment u) (u := v) hv hcopy (show v < s.size by omega)
      rw [ih hv hone hu] at hboth
      have hone' := ih (u := v) hv hone (by omega)
      simp only [WaitingTaskChain.lastTask, hboth, hone']
      rw [decrement_increment hlast, decrement_increment (refCount_lastTask l hv hone)]

/-- A stage whose condition is false leaves no trace in `lastTask`. -/
lemma lastTask_conditional_false (f : Handler N) (l : WaitingTaskChain N) (hv : v + 1 = s.size)
    (hone : 1 ≤ (s.task v).refCount) :
    (WaitingTaskChain.conditional false f l).lastTask s v = l.lastTask s v := by
  have hcopy := lastTask_increment l (u := v) hv hone (by omega)
  simp only [WaitingTaskChain.lastTask, hcopy]
  rw [decrement_increment (refCount_lastTask l hv hone)]

/-! ## The functor of the first stage -/

/-- A holder more of a task changes nothing for a handler that has no exception. -/
lemma handle_increment (s : State N E) (f : Handler N) (h u : ℕ) :
    (s.increment u).handle f none h = (s.handle f none h).increment u := by
  have hinvoke : ∀ g : N, (s.increment u).invoke g h = (s.invoke g h).increment u := by
    intro g
    have hcomm := increment_comm (s.addCall (.run g)) u h
    exact congrArg (fun s => (s.give h).addPoint (.running h)) hcomm
  cases f with
  | autoExceptionHandler g => exact hinvoke g
  | explicitExceptionHandler except g => exact hinvoke g
  | functor g => rfl

/-- A copy of an older holder is not in the way of `runLast`. -/
lemma runLast_increment (chain : WaitingTaskChain N) (hu : u < s.size) :
    chain.runLast (s.increment u) v
      = { chain.runLast s v with chain := (chain.runLast s v).chain.increment u } := by
  induction chain generalizing s v u with
  | single f =>
    rw [WaitingTaskChain.runLast, handle_increment]
    rfl
  | cons f l ih =>
    rw [WaitingTaskChain.runLast, makeWaitingTask_increment hu]
    exact ih (s := (s.makeWaitingTask f v).1) (Nat.lt_succ_of_lt hu)
  | conditional condition f l ih =>
    cases condition with
    | true =>
      rw [WaitingTaskChain.runLast, makeWaitingTask_increment hu]
      exact ih (s := (s.makeWaitingTask f v).1) (Nat.lt_succ_of_lt hu)
    | false =>
      have hrest := ih (s := s.increment v) (v := v) (u := u) hu
      simp only [WaitingTaskChain.runLast]
      rw [increment_comm, hrest]

/-- **`runLast` is `lastTask` without the first task.** The tasks are the same but for the holders
that `runLast` still has, and it calls the functor of the first stage at once. -/
lemma runLast_eq (chain : WaitingTaskChain N) (hv : v + 1 = s.size)
    (hone : 1 ≤ (s.task v).refCount) :
    ∃ (s₁ : State N E) (f : Handler N) (h : ℕ) (originals : List ℕ),
      s.size ≤ s₁.size ∧ h + 1 = s₁.size ∧ chain.lastTask s v = s₁.makeWaitingTask f h ∧
      chain.runLast s v
        = ⟨originals.foldl State.increment (s₁.handle f none h), h, originals⟩ ∧
      ∀ t ∈ originals, t < s₁.size := by
  induction chain generalizing s v with
  | single f => exact ⟨s, f, v, [], le_rfl, hv, rfl, rfl, by simp⟩
  | cons f l ih =>
    obtain ⟨s₁, g, h, originals, hle, hrest⟩ :=
      ih (s := (s.makeWaitingTask f v).1) rfl (refCount_makeWaitingTask s f v)
    exact ⟨s₁, g, h, originals, (Nat.le_succ s.size).trans hle, hrest⟩
  | conditional condition f l ih =>
    cases condition with
    | true =>
      obtain ⟨s₁, g, h, originals, hle, hrest⟩ :=
        ih (s := (s.makeWaitingTask f v).1) rfl (refCount_makeWaitingTask s f v)
      exact ⟨s₁, g, h, originals, (Nat.le_succ s.size).trans hle, hrest⟩
    | false =>
      -- the stage is left out: what stays of it is the holder that the call still has
      obtain ⟨s₁, g, h, originals, hle, hh, hlast, hrun, hold⟩ := ih hv hone
      refine ⟨s₁, g, h, originals ++ [v], hle, hh, ?_, ?_, ?_⟩
      · rw [lastTask_conditional_false f l hv hone]
        exact hlast
      · simp only [WaitingTaskChain.runLast]
        rw [runLast_increment l (by omega), hrun, List.foldl_append]
        rfl
      · intro t ht
        rcases List.mem_append.mp ht with ht | ht
        · exact hold t ht
        · obtain rfl := List.mem_singleton.mp ht
          omega

end UnifyPrototype.ChainFirst
