import UnifyPrototype.ChainFirst.Run
import UnifyPrototype.ChainFirst.RunLast

/-!
# `runLast` and `lastTask`

A run of `runLast` and a run of `lastTask` that was started with a null exception go through
matching states: the tasks differ by the holders that the calls of `runLast` still have. Such a
holder delays the task it belongs to and has no other effect.
-/

namespace UnifyPrototype.ChainFirst

open UnifyPrototype.Utils

variable {N E : Type} {l : List (Stage N)} {n t v : ℕ} {r r' : Running N E} {s s' : State N E}

/-! ## Matching states -/

/-- What `runLast` and `lastTask` have done so far is the same, but for the task `n` of the first
stage, which `runLast` does without. -/
structure Matches (n : ℕ) (r : Running N E) (s : State N E) : Prop where
  lambda : ∀ t ≠ n, r.chain.lambda t = s.lambda t
  task : ∀ t ≠ n, r.chain.task t
    = { s.task t with refCount := (s.task t).refCount + r.originals.count t }
  held : r.chain.held = s.held
  group : r.chain.group = s.group.filter fun t => r.originals.count t = 0
  points : r.chain.points = s.points
  started : s.started = (n, none) :: r.chain.started
  calls : r.chain.calls = s.calls
  reports : r.chain.reports = s.reports
  kept : ∀ t ∈ r.originals, t + s.started.length ≤ n

namespace Matches

lemma begun (h : Matches n r s) : s.started ≠ [] := by
  rw [h.started]
  exact List.cons_ne_nil _ _

lemma setTask (h : Matches n r s) {m m' : WaitingTask.Task E}
    (hm : m = { m' with refCount := m'.refCount + r.originals.count t }) :
    Matches n { r with chain := r.chain.setTask t m } (s.setTask t m') := by
  refine { h with task := fun u hu => ?_ }
  show Function.update r.chain.task t m u
    = { Function.update s.task t m' u with
        refCount := (Function.update s.task t m' u).refCount + r.originals.count u }
  by_cases hut : u = t
  · subst hut
    rw [Function.update_self, Function.update_self]
    exact hm
  · rw [Function.update_of_ne hut, Function.update_of_ne hut]
    exact h.task u hu

lemma increment (h : Matches n r s) (ht : t ≠ n) :
    Matches n { r with chain := r.chain.increment t } (s.increment t) := by
  apply h.setTask
  rw [h.task t ht]
  simp only [WaitingTask.Task.incrementRefCount, WaitingTask.Task.mk.injEq, and_self, and_true]
  omega

/-- An exception is forwarded in both runs. -/
lemma forward (h : Matches n r s) (ht : t ≠ n) (e : E) :
    Matches n { r with chain := r.chain.setTask t (dependentTaskFailed (r.chain.task t) e) }
      (s.setTask t (dependentTaskFailed (s.task t) e)) := by
  apply h.setTask
  rw [h.task t ht]
  unfold dependentTaskFailed
  split <;> rfl

/-- A failure is reported in both runs. -/
lemma report (h : Matches n r s) (ht : t ≠ n) (e : E) :
    Matches n { r with chain := r.chain.report t e } (s.report t e) := by
  refine { h.forward ht e with reports := ?_ }
  show Function.update r.chain.reports t _ = Function.update s.reports t _
  rw [h.reports]

lemma addPoint (h : Matches n r s) (p : Point E) :
    Matches n { r with chain := r.chain.addPoint p } (s.addPoint p) :=
  { h with points := congrArg (· ++ [p]) h.points }

lemma addCall (h : Matches n r s) (c : Call N E) :
    Matches n { r with chain := r.chain.addCall c } (s.addCall c) :=
  { h with calls := congrArg (· ++ [c]) h.calls }

lemma give (h : Matches n r s) (t : ℕ) :
    Matches n { r with chain := r.chain.give t } (s.give t) :=
  { h with held := congrArg (fun held => Function.update held t (held t + 1)) h.held }

/-- A decrement comes to zero at `lastTask`, and at `runLast` unless its calls have a holder. -/
lemma decrement (h : Matches n r s) (ht : t ≠ n) (hpos : 1 ≤ (s.task t).refCount) :
    Matches n { r with chain := r.chain.decrement t } (s.decrement t) := by
  have htask := h.task t ht
  have hm : (r.chain.task t).decrementRefCount.1 = { (s.task t).decrementRefCount.1 with
      refCount := (s.task t).decrementRefCount.1.refCount + r.originals.count t } := by
    rw [htask]
    simp only [WaitingTask.Task.decrementRefCount, WaitingTask.Task.mk.injEq, and_self, and_true]
    omega
  have hset := h.setTask hm
  refine { hset with group := ?_ }
  show (if 0 = (r.chain.task t).refCount - 1 then r.chain.group ++ [t] else r.chain.group)
    = (if 0 = (s.task t).refCount - 1 then s.group ++ [t] else s.group).filter _
  have hcount : (r.chain.task t).refCount = (s.task t).refCount + r.originals.count t := by
    rw [htask]
  by_cases hlast : 0 = (s.task t).refCount - 1
  · rw [if_pos hlast, List.filter_append, ← h.group]
    by_cases hkept : r.originals.count t = 0
    · rw [if_pos (by omega)]
      simp [hkept]
    · rw [if_neg (by omega)]
      simp [hkept]
  · rw [if_neg hlast, if_neg (by omega)]
    exact h.group

/-- Both runs enter the same handler. -/
lemma handle (h : Matches n r s) (hv : v ≠ n) (f : Handler N) (iPtr : Option E) :
    Matches n { r with chain := r.chain.handle f iPtr v } (s.handle f iPtr v) := by
  have hinvoke : ∀ g : N,
      Matches n { r with chain := r.chain.invoke g v } (s.invoke g v) := fun g =>
    (((h.addCall (.run g)).increment hv).give v).addPoint (.running v)
  cases f with
  | autoExceptionHandler g =>
    cases iPtr with
    | none => exact hinvoke g
    | some e => exact h.addPoint (.forward v e)
  | explicitExceptionHandler except g =>
    cases iPtr with
    | none => exact hinvoke g
    | some e => exact (h.addCall (.except except e)).addPoint (.forward v e)
  | functor g => exact (h.addCall (.runWith g iPtr)).give v

/-- The same task is executed. -/
lemma execute (h : Matches n r s) (hgroup : s.group = [t]) (hgroup' : r.chain.group = [t])
    (ht : t + s.started.length = n)
    (hlambda : ∀ f v, s.lambda t = some ⟨f, v⟩ → v ≠ n) :
    Matches n { r with chain := State.execute { r.chain with group := [] } t }
      (State.execute { s with group := [] } t) := by
  have hlength := List.length_pos_iff.mpr h.begun
  have hne : t ≠ n := by omega
  have htask := h.task t hne
  -- the group has the task, so no call of `runLast` keeps a holder of it
  have hfree : r.originals.count t = 0 := by
    have hmem : t ∈ r.chain.group := by simp [hgroup']
    rw [h.group] at hmem
    exact of_decide_eq_true (List.mem_filter.mp hmem).2
  have hptr : (r.chain.task t).uncheckedExceptionPtr = (s.task t).uncheckedExceptionPtr := by
    rw [htask]
    rfl
  have hbegin : Matches n
      { r with chain := { r.chain with
          group := [], started := r.chain.started ++ [(t, (s.task t).uncheckedExceptionPtr)] } }
      { s with group := [], started := s.started ++ [(t, (s.task t).uncheckedExceptionPtr)] } := by
    refine { h with group := rfl, started := ?_, kept := fun u hu => ?_ }
    · show s.started ++ _ = _
      rw [h.started]
      rfl
    · -- the task that is executed has no holder left
      have hkept := h.kept u hu
      have hut : u ≠ t := by
        rintro rfl
        exact absurd hfree (List.count_pos_iff.mpr hu).ne'
      rw [List.length_append, List.length_singleton]
      omega
  simp only [State.execute, hptr]
  rw [h.lambda t hne]
  cases hl : s.lambda t with
  | none => exact hbegin
  | some lambda => exact hbegin.handle (hlambda _ _ hl) _ _

/-- A handler comes to its next operation. -/
lemma goto (h : Matches n r s) (k : ℕ) (p : Option (Point E)) :
    Matches n { r with chain := State.goto k (r.chain, p) } (State.goto k (s, p)) := by
  refine { h with points := ?_ }
  cases p with
  | none => exact congrArg (·.eraseIdx k) h.points
  | some p => exact congrArg (·.set k p) h.points

/-- A call of `runLast` keeps a holder of a task that is still to come. -/
lemma keep (h : Matches n r s) (hgroup : s.group = []) (ht : t + s.started.length ≤ n) :
    Matches n { r with chain := r.chain.increment t, originals := r.originals ++ [t] } s := by
  have hlength := List.length_pos_iff.mpr h.begun
  have hne : t ≠ n := by omega
  refine { h with task := fun u hu => ?_, group := ?_, kept := fun u hu => ?_ }
  · show Function.update r.chain.task t (r.chain.task t).incrementRefCount u
      = { s.task u with refCount := (s.task u).refCount + (r.originals ++ [t]).count u }
    have htask := h.task u hu
    rw [List.count_append]
    by_cases hut : u = t
    · subst hut
      rw [Function.update_self, htask, List.count_singleton_self]
      rfl
    · have hcount : [t].count u = 0 := List.count_eq_zero.mpr (by simpa using hut)
      rw [Function.update_of_ne hut, hcount, Nat.add_zero]
      exact htask
  · show r.chain.group = s.group.filter _
    rw [h.group, hgroup]
    rfl
  · rcases List.mem_append.mp hu with hu | hu
    · exact h.kept u hu
    · obtain rfl := List.mem_singleton.mp hu
      exact ht

/-- The originals that `runLast` keeps are of stages that have not begun. -/
lemma keepAll (h : Matches n r s) (hgroup : s.group = []) (originals : List ℕ)
    (hkept : ∀ t ∈ originals, t + s.started.length ≤ n) :
    Matches n { r with
      chain := originals.foldl State.increment r.chain
      originals := r.originals ++ originals } s := by
  induction originals generalizing r with
  | nil => simpa using h
  | cons t originals ih =>
    have hone := h.keep hgroup (hkept t (by simp))
    have hrest := ih hone fun u hu => hkept u (by simp [hu])
    simpa using hrest

end Matches

/-! ## Matching steps -/

/-- What the invariant of the stages says of the task that is executed next. -/
lemma State.Folds.group_eq (h : s.Folds l none s.started.length) {k : ℕ}
    (hk : s.group[k]? = some t) :
    s.group = [t] ∧ k = 0 ∧ t + s.started.length = l.length ∧
      ∀ f v, s.lambda t = some ⟨f, v⟩ → v ≠ l.length := by
  have ht := h.group t (List.mem_of_getElem? hk)
  have hgroup := (h.current t ht).group
  split at hgroup
  next =>
    refine ⟨hgroup, ?_, ht, fun f v hlambda => ?_⟩
    · rw [hgroup] at hk
      cases k with
      | zero => rfl
      | succ k => simp at hk
    · rcases Nat.lt_or_ge s.started.length l.length with hlt | hge
      · have hindex : l.length - s.started.length = t := by omega
        have hown := h.lambda _ _ (List.getElem?_eq_getElem hlt)
        rw [hindex, hlambda] at hown
        have hv := congrArg Lambda.v (Option.some.inj hown)
        dsimp only at hv
        omega
      · obtain rfl : t = 0 := by omega
        rw [h.bottom] at hlambda
        cases hlambda
  next =>
    rw [hgroup] at hk
    cases hk

/-- Neither of them has a holder of the first task any more. -/
lemma State.Folds.holder_ne (h : s.Folds l none s.started.length) (hbegun : s.started ≠ [])
    (hheld : s.held t ≠ 0) : t ≠ l.length := by
  have ht := (h.of_held hheld).1
  have hlength := List.length_pos_iff.mpr hbegun
  omega

/-- What a handler at work has a holder of. -/
lemma State.Folds.refCount_pos (h : s.Folds l none s.started.length) (hbegun : s.started ≠ [])
    {p : Point E} (hp : p ∈ s.points) : p.task ≠ l.length ∧ 1 ≤ (s.task p.task).refCount := by
  have ht := h.points p hp
  have hlength := List.length_pos_iff.mpr hbegun
  have hcount := (h.current _ ht).count
  have hpos := List.length_pos_of_mem hp
  omega

/-- The same label is possible, and what it does is the same. -/
lemma matches_step (hfolds : s.Folds l none s.started.length) (h : Matches l.length r s)
    {b : Label E} (hgroup : ∀ k, b = .group k → r.chain.group = s.group) :
    Option.Rel (fun c s' => Matches l.length { r with chain := c } s')
      (ChainFirst.step r.chain b) (ChainFirst.step s b) := by
  cases b with
  -- the caller makes sure that neither group is behind the other
  | group k =>
    have hsame := hgroup k rfl
    simp only [step]
    rw [hsame]
    cases hk : s.group[k]? with
    | none => exact .none
    | some t =>
      obtain ⟨hown, rfl, ht, hlambda⟩ := hfolds.group_eq hk
      have hexecute := h.execute hown (hsame.trans hown) ht hlambda
      simp only [hown]
      exact .some hexecute
  | advance k =>
    simp only [step]
    rw [h.points]
    cases hk : s.points[k]? with
    | none => exact .none
    | some p =>
      obtain ⟨hne, hpos⟩ := hfolds.refCount_pos h.begun (List.mem_of_getElem? hk)
      cases p with
      | forward t e => exact .some ((h.forward hne e).goto k _)
      | running t => exact .none
      | caught t e => exact .some ((h.report hne e).goto k _)
      | release t => exact .some ((h.decrement hne hpos).goto k none)
  | returns k | throws k e =>
    simp only [step]
    rw [h.points]
    split
    · exact .some (h.goto k _)
    · exact .none
  | copy t =>
    simp only [step]
    rw [h.held]
    split
    · exact .none
    next hheld => exact .some ((h.increment (hfolds.holder_ne h.begun hheld)).give t)
  | report t e =>
    simp only [step]
    rw [h.held]
    split
    · exact .none
    next hheld => exact .some (h.report (hfolds.holder_ne h.begun hheld) e)
  -- the holder that is let go is one of `lastTask` too
  | letGo t =>
    simp only [step]
    rw [h.held]
    split
    · exact .none
    next hheld =>
      have hne := hfolds.holder_ne h.begun hheld
      have hcount := (hfolds.current t (hfolds.of_held hheld).1).count
      exact .some { h.decrement hne (by omega) with held := rfl }

/-- A call of `runLast` returns, which `lastTask` does not notice. -/
lemma matches_unwind (hfolds : s.Folds l none s.started.length) (h : Matches l.length r s)
    (hstep : Running.step r .unwind = some r') : Matches l.length r' s := by
  simp only [Running.step] at hstep
  split at hstep
  next => cases hstep
  next t rest hr =>
    split at hstep
    next => cases hstep
    next =>
      obtain rfl := Option.some.inj hstep
      have hkept := h.kept t (by simp [hr])
      have hlength := List.length_pos_iff.mpr h.begun
      have hne : t ≠ l.length := by omega
      have hcount : (r.chain.task t).refCount = (s.task t).refCount + (rest.count t + 1) := by
        rw [h.task t hne, hr, List.count_cons_self]
      -- without holders of its own it is the task that waits for the calls of `runLast`
      have hwaits : (s.task t).refCount = 0 → s.group = [t] := by
        intro hzero
        have ht : t + s.started.length = l.length := by
          by_contra hlater
          rw [(hfolds.later t (by omega)).1] at hzero
          cases hzero
        rw [(hfolds.current t ht).group, if_pos hzero]
      have hgroup := h.group
      rw [hr] at hgroup
      refine { h with task := fun u hu => ?_, group := ?_, kept := fun u hu => ?_ }
      · show Function.update r.chain.task t (r.chain.task t).decrementRefCount.1 u
          = { s.task u with refCount := (s.task u).refCount + rest.count u }
        by_cases hut : u = t
        · subst hut
          rw [Function.update_self, h.task u hne, hr, List.count_cons_self]
          rfl
        · rw [Function.update_of_ne hut, h.task u hu, hr, List.count_cons_of_ne (Ne.symm hut)]
      · show (if 0 = (r.chain.task t).refCount - 1 then r.chain.group ++ [t] else r.chain.group)
          = s.group.filter fun u => rest.count u = 0
        by_cases hlast : (s.task t).refCount = 0 ∧ rest.count t = 0
        · rw [if_pos (by omega), hgroup, hwaits hlast.1]
          simp [hlast.2]
        · rw [if_neg (by omega), hgroup]
          apply List.filter_congr
          intro u hu
          by_cases hut : u = t
          · subst hut
            -- it is with the group of `lastTask`, so another call has a holder of it
            have hcurrent := hfolds.current u (hfolds.group u hu)
            have hzero : (s.task u).refCount = 0 := by
              by_contra hpos
              rw [hcurrent.group_eq_nil hpos] at hu
              cases hu
            have hmore : rest.count u ≠ 0 := fun hnone => hlast ⟨hzero, hnone⟩
            simp [hmore]
          · rw [List.count_cons_of_ne (Ne.symm hut)]
      · exact h.kept u (by simp [hr, hu])

/-- When no handler is at work all calls of `runLast` may return. -/
lemma matches_unwindAll (hfolds : s.Folds l none s.started.length) (h : Matches l.length r s)
    (hpoints : s.points = []) :
    ∃ r', Reaches Running.step r r' ∧ r'.originals = [] ∧ Matches l.length r' s := by
  generalize horiginals : r.originals = originals
  induction originals generalizing r with
  | nil => exact ⟨r, .refl, horiginals, h⟩
  -- the innermost call returns first
  | cons t rest ih =>
    have hstep : Running.step r .unwind
        = some { r with chain := r.chain.decrement t, originals := rest } := by
      simp [Running.step, horiginals, h.points, hpoints]
    obtain ⟨r', hrun, hdone, hmatches⟩ := ih (matches_unwind hfolds h hstep) rfl
    exact ⟨r', (RunsTo.refl.tail trivial hstep).trans hrun, hdone, hmatches⟩

/-! ## The start -/

/-- A handler that lets go of the only holder in use has the next move. -/
lemma step_of_release (hpoints : s.points = [.release t]) (hgroup : s.group = [])
    (hheld : ∀ t, s.held t = 0) {b : Label E} (hstep : step s b = some s') :
    s' = State.goto 0 (s.decrement t, none) := by
  cases b with
  | group k => simp [step, hgroup] at hstep
  | advance k =>
    cases k with
    | zero => simpa [step, hpoints, Point.step, eq_comm] using hstep
    | succ k => simp [step, hpoints] at hstep
  | returns k | throws k e =>
    cases k with
    | zero => simp [step, hpoints] at hstep
    | succ k => simp [step, hpoints] at hstep
  | copy u | report u e | letGo u => simp [step, hheld u] at hstep

/-- A task handed to the group is executed when there is nothing else to do. -/
lemma step_of_group (hpoints : s.points = []) (hgroup : s.group = [t])
    (hheld : ∀ t, s.held t = 0) {b : Label E} (hstep : step s b = some s') :
    s' = State.execute { s with group := [] } t := by
  cases b with
  | group k =>
    cases k with
    | zero => simpa [step, hgroup, eq_comm] using hstep
    | succ k => simp [step, hgroup] at hstep
  | advance k | returns k | throws k e => simp [step, hpoints] at hstep
  | copy u | report u e | letGo u => simp [step, hheld u] at hstep

/-- A handler executes nothing itself. -/
lemma frame_handle (s : State N E) (f : Handler N) (iPtr : Option E) (h : ℕ) :
    (s.handle f iPtr h).started = s.started ∧ (s.handle f iPtr h).group = s.group := by
  cases f <;> cases iPtr <;> exact ⟨rfl, rfl⟩

/-- The first task, number `s₀.size`, is executed: its functor is called as `runLast` calls it. -/
lemma matches_execute_first {s₀ s₁ : State N E} {g : Handler N} {h : ℕ} {originals : List ℕ}
    (hh : h < s₀.size) (hold : ∀ t ∈ originals, t < s₀.size) (hgroup : s₀.group = [])
    (hlambda : s₁.lambda = Function.update s₀.lambda s₀.size (some ⟨g, h⟩))
    (htask : s₁.task = Function.update s₀.task s₀.size {})
    (hstarted : s₀.started = [] ∧ s₁.started = [])
    (hsame : (s₀.held, s₀.points, s₀.calls, s₀.reports)
      = (s₁.held, s₁.points, s₁.calls, s₁.reports)) :
    Matches s₀.size ⟨originals.foldl State.increment (s₀.handle g none h), h, originals⟩
      (State.execute { s₁ with group := [] } s₀.size) := by
  simp only [Prod.mk.injEq] at hsame
  obtain ⟨hheld, hpoints, hcalls, hreports⟩ := hsame
  have hexecute : State.execute { s₁ with group := [] } s₀.size
      = ({ s₁ with group := [], started := s₁.started ++ [(s₀.size, none)] } :
        State N E).handle g none h := by
    simp only [State.execute, htask, hlambda, Function.update_self]
    rfl
  -- before the call the states differ in the first task only
  have hbegun : Matches s₀.size ⟨s₀, h, []⟩
      { s₁ with group := [], started := s₁.started ++ [(s₀.size, none)] } := by
    refine ⟨fun t ht => ?_, fun t ht => ?_, hheld, hgroup, hpoints, ?_, hcalls, hreports, by simp⟩
    · show s₀.lambda t = s₁.lambda t
      rw [hlambda, Function.update_of_ne ht]
    · show s₀.task t = s₁.task t
      rw [htask, Function.update_of_ne ht]
    · show s₁.started ++ _ = _
      rw [hstarted.1, hstarted.2]
      rfl
  -- both sides make the same call, and then the caller's references are added
  have hcalled := hbegun.handle (v := h) (by omega) g none
  have hframe := frame_handle
    { s₁ with group := [], started := s₁.started ++ [(s₀.size, none)] } g none h
  have hkept : ∀ t ∈ originals, t + (({ s₁ with
      group := [], started := s₁.started ++ [(s₀.size, none)] } :
        State N E).handle g none h).started.length ≤ s₀.size := by
    intro t ht
    rw [hframe.1, hstarted.2]
    exact hold t ht
  rw [hexecute]
  exact hcalled.keepAll hframe.2 originals hkept

/-- `lastTask` comes to the call of the first functor in two steps, and there is no other way. -/
structure Starts (n : ℕ) (r : Running N E) (s s₁ s₂ : State N E) : Prop where
  release : step s (.advance 0) = some s₁
  onlyRelease : ∀ b s', step s b = some s' → s' = s₁
  group : step s₁ (.group 0) = some s₂
  onlyGroup : ∀ b s', step s₁ b = some s' → s' = s₂
  started : s.started = [] ∧ s₁.started = []
  related : Matches n r s₂

/-- The first task was made last, and its only holder is released. -/
lemma starts_of_made {s₀ : State N E} (g : Handler N) {h : ℕ} {originals : List ℕ}
    (hh : h < s₀.size) (hold : ∀ t ∈ originals, t < s₀.size) (hheld : s₀.held = fun _ => 0)
    (hgroup : s₀.group = []) (hpoints : s₀.points = []) (hstarted : s₀.started = []) :
    ∃ s₁ s₂ : State N E, Starts s₀.size
      ⟨originals.foldl State.increment (s₀.handle g none h), h, originals⟩
      ((s₀.makeWaitingTask g h).1.addPoint (.release s₀.size)) s₁ s₂ := by
  generalize hmade : (s₀.makeWaitingTask g h).1.addPoint (.release s₀.size) = s
  have hpoints' : s.points = [.release s₀.size] := by
    rw [← hmade]
    show s₀.points ++ _ = _
    rw [hpoints]
    rfl
  have hgroup' : s.group = [] := by rw [← hmade]; exact hgroup
  have hheld' : ∀ t, s.held t = 0 := by
    rw [← hmade]
    exact congrFun hheld
  have htask : s.task = Function.update s₀.task s₀.size { refCount := 1 } := by rw [← hmade]; rfl
  have hfirst : s.task s₀.size = { refCount := 1 } := by rw [htask, Function.update_self]
  have hstarted' : s.started = [] := by rw [← hmade]; exact hstarted
  -- the only holder of the first task is released, and the group gets the task
  generalize hs₁ : State.goto 0 (s.decrement s₀.size, none) = s₁
  have hpoints₁ : s₁.points = [] := by
    rw [← hs₁]
    show s.points.eraseIdx 0 = []
    rw [hpoints']
    rfl
  have hgroup₁ : s₁.group = [s₀.size] := by
    rw [← hs₁]
    show (if 0 = (s.task s₀.size).refCount - 1 then s.group ++ [s₀.size] else s.group) = _
    rw [hfirst, hgroup']
    rfl
  have htask₁ : s₁.task = Function.update s₀.task s₀.size {} := by
    rw [← hs₁]
    show Function.update s.task s₀.size (s.task s₀.size).decrementRefCount.1 = _
    rw [hfirst, htask, Function.update_idem]
    rfl
  have hheld₁ : ∀ t, s₁.held t = 0 := by
    rw [← hs₁]
    exact hheld'
  have hstarted₁ : s₁.started = [] := by rw [← hs₁]; exact hstarted'
  refine ⟨s₁, State.execute { s₁ with group := [] } s₀.size, ?_, ?_, ?_, ?_,
    ⟨hstarted', hstarted₁⟩, ?_⟩
  · rw [← hs₁]
    simp [step, hpoints', Point.step]
  · intro b s' hstep
    rw [← hs₁]
    exact step_of_release hpoints' hgroup' hheld' hstep
  · simp [step, hgroup₁]
  · intro b s' hstep
    exact step_of_group hpoints₁ hgroup₁ hheld₁ hstep
  · apply matches_execute_first hh hold hgroup _ htask₁ ⟨hstarted, hstarted₁⟩
    · rw [hpoints, hpoints₁, ← hs₁, ← hmade]
      rfl
    · rw [← hs₁, ← hmade]
      rfl

/-- The two runs start in step. -/
lemma starts (f : Stage N) (links : List (Link N)) :
    ∃ s₁ s₂ : State N E, Starts (stages f links).length (chainOf f links).startRunLast
      ((chainOf f links).start none) s₁ s₂ := by
  obtain ⟨s₀, g, h, originals, -, hh, hlast, hrun, hold⟩ :=
    runLast_eq (s := (initial : State N E)) (v := 0) (chainOf f links) rfl le_rfl
  have hbuilt := built_lastTask (s := (initial : State N E)) (v := 0) (chainOf f links) rfl le_rfl
  rw [hlast] at hbuilt
  have hsize := hbuilt.size
  rw [handlers_chainOf, List.length_map] at hsize
  have hn : s₀.size = (stages f links).length := by
    change s₀.size + 1 = 1 + _ at hsize
    omega
  have hrest := hbuilt.rest
  simp only [Prod.mk.injEq] at hrest
  obtain ⟨hheld, hgroup, hpoints, hstarted, -, -⟩ := hrest
  have hs : (chainOf f links).start none
      = (s₀.makeWaitingTask g h).1.addPoint (.release s₀.size) := by
    unfold WaitingTaskChain.start
    rw [hlast]
    rfl
  have hr : (chainOf f links).startRunLast
      = ⟨originals.foldl State.increment (s₀.handle g none h), h, originals⟩ := hrun
  rw [← hn, hs, hr]
  exact starts_of_made g (by omega) hold hheld hgroup hpoints hstarted

/-! ## Runs -/

/-- A run of `lastTask` has come to a state that matches `r`. -/
def MatchedBy (f : Stage N) (links : List (Link N)) (r : Running N E) (s : State N E) : Prop :=
  Reaches step ((chainOf f links).start none) s ∧ Matches (stages f links).length r s

variable {f : Stage N} {links : List (Link N)}

/-- In step from the start, before anything has been done. -/
lemma Starts.matchedBy {s₁ s₂ : State N E}
    (h : Starts (stages f links).length r ((chainOf f links).start none) s₁ s₂) :
    MatchedBy f links r s₂ :=
  ⟨(RunsTo.refl.tail trivial h.release).tail trivial h.group, h.related⟩

/-- A step of `runLast` is matched by a step of `lastTask` or by none. -/
lemma runLast_step {a : RunLabel E} (h : MatchedBy f links r s)
    (hstep : Running.step r a = some r') : ∃ s', Reaches step s s' ∧ MatchedBy f links r' s' := by
  obtain ⟨hreach, hmatches⟩ := h
  have hfolds := folds_of_reaches f links none hreach
  cases a with
  | unwind => exact ⟨s, .refl, hreach, matches_unwind hfolds hmatches hstep⟩
  | chain b =>
    obtain ⟨c, hc, rfl⟩ := Option.map_eq_some_iff.mp hstep
    -- what `runLast` executes is with the group of `lastTask`, where nothing else is
    have hgroup : ∀ k, b = .group k → r.chain.group = s.group := by
      intro k hb
      subst hb
      obtain ⟨t, ht, -⟩ := Option.map_eq_some_iff.mp hc
      have hmem := List.mem_of_getElem? ht
      rw [hmatches.group] at hmem ⊢
      obtain ⟨hmem, hfree⟩ := List.mem_filter.mp hmem
      obtain ⟨j, hj⟩ := List.getElem?_of_mem hmem
      rw [(hfolds.group_eq hj).1]
      simpa using hfree
    have hrel := matches_step hfolds hmatches hgroup
    rw [hc] at hrel
    generalize hs : step s b = o at hrel
    cases hrel with
    | @some _ s' hmatches' =>
      exact ⟨s', RunsTo.refl.tail trivial hs, hreach.tail trivial hs, hmatches'⟩

/-- A step of `lastTask` is matched by a step of `runLast`, before which the calls of `runLast` may
have to return. -/
lemma lastTask_step {b : Label E} (h : MatchedBy f links r s) (hstep : step s b = some s') :
    ∃ r', Reaches Running.step r r' ∧ MatchedBy f links r' s' := by
  obtain ⟨hreach, hmatches⟩ := h
  have hfolds := folds_of_reaches f links none hreach
  -- only before a task is executed do the calls have to return
  obtain ⟨r₁, hunwound, hmatches₁, hgroup⟩ : ∃ r₁, Reaches Running.step r r₁ ∧
      Matches (stages f links).length r₁ s ∧ ∀ k, b = .group k → r₁.chain.group = s.group := by
    cases b with
    | group k =>
      obtain ⟨t, ht, -⟩ := Option.map_eq_some_iff.mp hstep
      -- a task is executed when no handler is at work
      have hcurrent := hfolds.current t (hfolds.group_eq ht).2.2.1
      have hzero : (s.task t).refCount = 0 := by
        by_contra hpos
        rw [hcurrent.group_eq_nil hpos] at ht
        cases ht
      have hcount := hcurrent.count
      have hpoints : s.points = [] := List.eq_nil_of_length_eq_zero (by omega)
      obtain ⟨r₁, hunwound, hdone, hmatches₁⟩ := matches_unwindAll hfolds hmatches hpoints
      refine ⟨r₁, hunwound, hmatches₁, fun _ _ => ?_⟩
      rw [hmatches₁.group, hdone]
      simp
    | advance | returns | throws | copy | report | letGo => exact ⟨r, .refl, hmatches, nofun⟩
  have hrel := matches_step hfolds hmatches₁ hgroup
  rw [hstep] at hrel
  generalize hc : step r₁.chain b = o at hrel
  cases hrel with
  | @some c _ hmatches' =>
    have hchain : Running.step r₁ (.chain b) = some { r₁ with chain := c } := by
      simp [Running.step, hc]
    exact ⟨_, hunwound.tail trivial hchain, hreach.tail trivial hstep, hmatches'⟩

/-- Each run of `runLast` is matched by one of `lastTask`. -/
lemma runLast_matched (h : Reaches Running.step (chainOf f links).startRunLast r) :
    ∃ s, MatchedBy f links r s := by
  obtain ⟨s₁, s₂, hstarts⟩ := starts (E := E) f links
  obtain ⟨s, -, hs⟩ := h.simulate_rel hstarts.matchedBy
    fun r a r' s hs _ hstep => runLast_step hs hstep
  exact ⟨s, hs⟩

/-- Each run of `lastTask` that has come to the first stage is matched by one of `runLast`. -/
lemma lastTask_matched (h : Reaches step ((chainOf f links).start none) s)
    (hbegun : s.started ≠ []) :
    ∃ r, Reaches Running.step (chainOf f links).startRunLast r ∧ MatchedBy f links r s := by
  obtain ⟨s₁, s₂, hstarts⟩ := starts (E := E) f links
  -- the two steps before the first functor is called are matched by none
  obtain ⟨r, hrun, hrel⟩ := h.simulate_rel
    (R := fun s r => (s = (chainOf f links).start none ∨ s = s₁) ∧
      r = (chainOf f links).startRunLast ∨ MatchedBy f links r s) (.inl ⟨.inl rfl, rfl⟩)
    fun s b s' r hrel _ hstep => by
      rcases hrel with ⟨rfl | rfl, rfl⟩ | hs
      · exact ⟨_, .refl, .inl ⟨.inr (hstarts.onlyRelease b s' hstep), rfl⟩⟩
      · obtain rfl := hstarts.onlyGroup b s' hstep
        exact ⟨_, .refl, .inr hstarts.matchedBy⟩
      · obtain ⟨r', hrun, hs'⟩ := lastTask_step hs hstep
        exact ⟨r', hrun, .inr hs'⟩
  refine ⟨r, hrun, ?_⟩
  rcases hrel with ⟨rfl | rfl, -⟩ | hs
  · exact absurd hstarts.started.1 hbegun
  · exact absurd hstarts.started.2 hbegun
  · exact hs

/-! ## The same stages -/

/-- The same stages were executed in the same order, each with the same pending exception, the same
functors were called, and they reported the same failures. `n` is the task of the first stage. -/
structure SameSoFar (n : ℕ) (r : Running N E) (s : State N E) : Prop where
  started : s.started = (n, none) :: r.chain.started
  calls : r.chain.calls = s.calls
  reports : r.chain.reports = s.reports

/-- Runs in step have called the same and started the same. -/
lemma Matches.sameSoFar (h : Matches n r s) : SameSoFar n r s :=
  ⟨h.started, h.calls, h.reports⟩

/-- Everything that was handed out is released, and all calls of `runLast` have returned. -/
def Running.Quiet (r : Running N E) : Prop :=
  r.chain.Quiet ∧ r.originals = []

/-- When nothing is left to do in the one run, nothing is in the other. -/
lemma Matches.quiet (h : Matches n r s) (hquiet : r.Quiet) : s.Quiet := by
  obtain ⟨⟨hpoints, hgroup, hheld⟩, horiginals⟩ := hquiet
  refine ⟨h.points.symm.trans hpoints, ?_, fun t => ?_⟩
  · have hfilter := h.group
    rw [hgroup, horiginals] at hfilter
    simpa using hfilter.symm
  · rw [← h.held]
    exact hheld t

/-- The task 0 is executed once, after the tasks of the stages. -/
lemma State.Folds.last {x : Option E} (h : s.Folds l x (l.length + 1)) :
    (s.started.map Prod.fst).count 0 = 1 ∧
      s.started.getLast? = some (0, before l x (s.failure l.length) l.length) := by
  rw [h.started, List.range_succ, List.map_append, List.map_append]
  refine ⟨?_, by simp⟩
  have hearlier : (((List.range l.length).map fun k =>
      (l.length - k, before l x (s.failure l.length) k)).map Prod.fst).count 0 = 0 := by
    apply List.count_eq_zero.mpr
    intro hmem
    simp only [List.map_map, List.mem_map, List.mem_range, Function.comp_apply] at hmem
    obtain ⟨k, hk, hzero⟩ := hmem
    omega
  rw [List.count_append, hearlier]
  simp

/-- **`runLast` equals `lastTask` plus a start.** For every chain: whatever a run of `runLast` has
done so far some run of `lastTask`, started with a null exception, has done as well, and the other way
round from the call of the first functor. And when the functors behave in the same way in a run of
each, and both runs are over, the same stages were executed in the same order with the same pending
exceptions, the same functors were called, and the last task was executed once, with the same
exception. -/
theorem runLast_like_lastTask (f : Stage N) (links : List (Link N)) :
    let chain := chainOf f links
    let l := stages f links
    (∀ r : Running N E, Reaches Running.step chain.startRunLast r →
      ∃ s, Reaches step (chain.start none) s ∧ SameSoFar l.length r s) ∧
    (∀ s : State N E, Reaches step (chain.start none) s → s.started ≠ [] →
      ∃ r, Reaches Running.step chain.startRunLast r ∧ SameSoFar l.length r s) ∧
    ∀ (r : Running N E) (s : State N E) (b : ℕ → Option E → Option E),
      Reaches Running.step chain.startRunLast r → Reaches step (chain.start none) s →
      r.Quiet → s.Quiet → Follows l none (r.chain.failure l.length) b →
      Follows l none (s.failure l.length) b →
      s.started = (l.length, none) :: r.chain.started ∧ r.chain.calls = s.calls ∧
      (r.chain.started.map Prod.fst).count 0 = 1 ∧ (s.started.map Prod.fst).count 0 = 1 ∧
      ∃ y, r.chain.started.getLast? = some (0, y) ∧ s.started.getLast? = some (0, y) := by
  intro chain l
  refine ⟨fun r hr => ?_, fun s hs hbegun => ?_, fun r s b hr hs hrquiet hsquiet hrb hsb => ?_⟩
  · obtain ⟨s, hs, hmatches⟩ := runLast_matched hr
    exact ⟨s, hs, hmatches.sameSoFar⟩
  · obtain ⟨r, hr, -, hmatches⟩ := lastTask_matched hs hbegun
    exact ⟨r, hr, hmatches.sameSoFar⟩
  obtain ⟨s', hs', hmatches⟩ := runLast_matched hr
  have hfolds' := folds_of_reaches f links none hs'
  have hfolds := folds_of_reaches f links none hs
  rw [hfolds'.length_of_quiet (hmatches.quiet hrquiet)] at hfolds'
  rw [hfolds.length_of_quiet hsquiet] at hfolds
  have hfailure : r.chain.failure l.length = s'.failure l.length := by
    unfold State.failure
    rw [hmatches.reports]
  rw [hfailure] at hrb
  -- the runs of `lastTask` agree with the fold, and so with each other
  have hstarted : s'.started = s.started := by
    rw [hfolds'.started, hfolds.started]
    exact List.map_congr_left fun k _ => by rw [hrb.before_eq hsb k]
  have hcalls : s'.calls = s.calls := by
    rw [hfolds'.calls, hfolds.calls]
    exact hrb.callsBefore_eq hsb _
  have hsame : s.started = (l.length, none) :: r.chain.started := hstarted ▸ hmatches.started
  obtain ⟨hcount, hlast⟩ := hfolds.last
  have hfirst : l.length ≠ 0 := Nat.succ_ne_zero _
  refine ⟨hsame, hmatches.calls.trans hcalls, ?_, hcount, _, ?_, hlast⟩
  · rw [hsame, List.map_cons, List.count_cons_of_ne hfirst] at hcount
    exact hcount
  · rw [hsame, List.getLast?_cons] at hlast
    have hlast := Option.some.inj hlast
    cases hr : r.chain.started.getLast? with
    | none =>
      rw [hr] at hlast
      exact absurd (congrArg Prod.fst hlast) hfirst
    | some q =>
      rw [hr] at hlast
      exact congrArg some hlast

/-- The run of `failingRun` with `runLast`: the functor of the first stage is called at once, and the
stage that is left out delays the second one. -/
def failingRunLast : List (RunLabel ℕ) :=
  [.chain (.report 2 7), .chain (.throws 0 8), .chain (.advance 0), .chain (.advance 0),
    .chain (.letGo 2), .unwind, .chain (.group 0), .chain (.advance 0), .chain (.advance 0),
    .chain (.group 0), .chain (.letGo 0), .chain (.group 0)]

/-- What the functors of `failingChain` do there. -/
def failingFunctors : ℕ → Option ℕ → Option ℕ
  | 0, none => some 7
  | _, _ => none

lemma follows_failingFunctors (failure : ℕ → Option ℕ) (hfirst : failure 0 = some 7)
    (hlast : failure 2 = none) :
    Follows (stages (.oneArgument 1) failingChain) none failure failingFunctors := by
  have hpending : before (stages (.oneArgument 1) failingChain) none failure 1 = some 7 := hfirst
  intro k f hf hruns
  rcases k with _ | _ | _ | k
  · exact hfirst
  · -- the exception is passed on
    obtain rfl := Option.some.inj hf
    rw [hpending] at hruns
    cases hruns
  · exact hlast
  · cases hf

theorem runLast_like_lastTask_failingRun :
    ∃ r s, executeAll Running.step (chainOf (.oneArgument 1) failingChain).startRunLast
        failingRunLast = some r ∧
      executeAll step ((chainOf (.oneArgument 1) failingChain).start none) failingRun = some s ∧
      s.calls = [.run 1, .except 3 7, .runWith 5 (some 7)] ∧ r.chain.calls = s.calls ∧
      (r.chain.started.map Prod.fst).count 0 = 1 ∧ s.started = (3, none) :: r.chain.started := by
  have hrun : ∃ r, executeAll Running.step (chainOf (.oneArgument 1) failingChain).startRunLast
      failingRunLast = some r ∧ r.Quiet ∧ r.chain.reports 2 = [7, 8] ∧ r.chain.reports 0 = [] := by
    refine ⟨_, rfl, ⟨⟨by decide, by decide, fun t => ?_⟩, by decide⟩, by decide, by decide⟩
    rcases t with _ | _ | _ | _ | t <;> rfl
  have hrun' : ∃ s, executeAll step ((chainOf (.oneArgument 1) failingChain).start none) failingRun
      = some s ∧ s.calls = [.run 1, .except 3 7, .runWith 5 (some 7)] ∧ s.Quiet ∧
        s.reports 2 = [7, 8] ∧ s.reports 0 = [] := by
    refine ⟨_, rfl, by decide, ⟨by decide, by decide, fun t => ?_⟩, by decide, by decide⟩
    rcases t with _ | _ | _ | _ | t <;> rfl
  obtain ⟨r, hr, hrquiet, hfirst, hlast⟩ := hrun
  obtain ⟨s, hs, hcalls, hsquiet, hfirst', hlast'⟩ := hrun'
  have hrb := follows_failingFunctors (r.chain.failure 3)
    (congrArg List.head? hfirst) (congrArg List.head? hlast)
  have hsb := follows_failingFunctors (s.failure 3)
    (congrArg List.head? hfirst') (congrArg List.head? hlast')
  obtain ⟨hstarted, hsame, hcount, -⟩ :=
    (runLast_like_lastTask (.oneArgument 1) failingChain).2.2 r s failingFunctors
      (.of_executeAll _ hr) (.of_executeAll _ hs) hrquiet hsquiet hrb hsb
  exact ⟨r, s, hr, hs, hcalls, hsame, hcount, hstarted⟩

end UnifyPrototype.ChainFirst
