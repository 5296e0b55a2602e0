import UnifyPrototype.FinalWaitingTask.Model
import UnifyPrototype.WaitingTask.Once

/-!
# `syncWait` returns last

The functor behind `m_handle` is given to the group by `recycle`, which the `TaskSentry` calls after
`execute`. So while the group still has the handle to run, the task was not executed, and when it
has run it, the task was executed and no reference is left.
-/

namespace UnifyPrototype.FinalWaitingTask

open UnifyPrototype.Utils
open UnifyPrototype.WaitingTask (carries live)

variable {E : Type} {s s' : State E}

/-! ## The invariant -/

/-- One when the handle was given to the group. -/
def Handle.given : Handle → ℕ
  | .deferred => 0
  | .pending | .ran => 1

/-- The function was begun, so it has been given its holder. -/
def Function.begun : Function → Bool
  | .toBeRun | .pending => false
  | .running _ _ | .over => true

/-- Each execution is followed by one `recycle`, and the wait by the run of the handle. -/
structure State.Recycled (s : State E) : Prop where
  last : WaitingTask.Reachable s.last
  wrapped : s.function.begun = true → s.last.wrapped = true
  executed : s.last.executed.length = s.sentries + s.handle.given
  done : s.done = true ↔ s.last.executed ≠ []
  waited : s.waiter.groupWaited = true → s.function = .over ∧ s.handle = .ran
  returned : ∀ r, s.waiter = .returned r → r ∈ s.last.executed

/-- The handle is given to the group only when the last task has been executed. -/
lemma State.Recycled.executed_ne_nil (h : s.Recycled) (hgiven : s.handle.given = 1) :
    s.last.executed ≠ [] := by
  have hlength := h.executed
  apply List.ne_nil_of_length_pos
  omega

/-- When the handle was given to the group the task was executed once, and its sentry is gone. -/
lemma State.Recycled.given (h : s.Recycled) (hgiven : s.handle.given = 1) :
    s.last.executed.length = 1 ∧ s.sentries = 0 := by
  have hlength := h.executed
  have hle := WaitingTask.handOvers_le_one h.last
  unfold WaitingTask.State.handOvers WaitingTask.State.handed at hle
  omega

/-- The holders are used while `syncWait` and the group do nothing. -/
lemma State.Recycled.setLast (h : s.Recycled) {last : WaitingTask.State E} {f : Function}
    {b : WaitingTask.Label E} (hb : b ≠ .group) (hstep : WaitingTask.step s.last b = some last)
    (hwrapped : f.begun = true → last.wrapped = true)
    (hover : s.function = .over → f = .over) :
    ({ s with last := last, function := f } : State E).Recycled := by
  have hsame := WaitingTask.executed_of_ne_group hb hstep
  refine ⟨h.last.tail trivial hstep, hwrapped, ?_, ?_, ?_, ?_⟩
  · rw [hsame]
    exact h.executed
  · rw [hsame]
    exact h.done
  · intro hwaited
    exact ⟨hover (h.waited hwaited).1, (h.waited hwaited).2⟩
  · rw [hsame]
    exact h.returned

/-- `execute` is counted by its sentry. -/
lemma State.Recycled.execute (h : s.Recycled) {last : WaitingTask.State E}
    (hlast : WaitingTask.step s.last .group = some last) :
    ({ s with last := last, done := true, sentries := s.sentries + 1 } : State E).Recycled := by
  have hexecuted := (WaitingTask.executed_group hlast).1
  have hlength := h.executed
  refine ⟨h.last.tail trivial hlast,
    fun hbegun => WaitingTask.wrapped_step (h.wrapped hbegun) hlast, ?_, ?_, h.waited, ?_⟩
  · rw [hexecuted, List.length_append, List.length_singleton]
    dsimp only
    omega
  · rw [hexecuted]
    simp
  · intro r hr
    rw [hexecuted]
    exact List.mem_append_left _ (h.returned r hr)

/-- The sentry is replaced by the handle in the group. -/
lemma State.Recycled.recycle (h : s.Recycled) (hsentries : s.sentries ≠ 0)
    (hhandle : s.handle = .deferred) :
    ({ s with handle := .pending, sentries := s.sentries - 1, ending := s.ending + 1 } :
      State E).Recycled := by
  have hlength := h.executed
  rw [hhandle] at hlength
  refine ⟨h.last, h.wrapped, ?_, h.done, ?_, h.returned⟩
  · simp only [Handle.given] at hlength ⊢
    omega
  · intro hwaited
    have hran := (h.waited hwaited).2
    rw [hhandle] at hran
    cases hran

/-- `exceptionPtr` reads what the execution read. -/
lemma State.Recycled.returns (h : s.Recycled) (hwaiter : s.waiter = .waited) :
    ({ s with waiter := .returned s.last.task.exceptionPtr } : State E).Recycled := by
  have hwaited := h.waited (by rw [hwaiter]; rfl)
  refine ⟨h.last, h.wrapped, h.executed, h.done, fun _ => hwaited, ?_⟩
  intro r hr
  obtain rfl := Waiter.returned.inj hr
  have hne := h.executed_ne_nil (by rw [hwaited.2]; rfl)
  have hfinal := WaitingTask.final_of_executed h.last hne
  obtain ⟨x, hx⟩ := List.exists_mem_of_ne_nil _ hne
  have hread : s.last.task.exceptionPtr = x :=
    hfinal.checked.symm.trans (WaitingTask.executed h.last x hx).symm
  rw [hread]
  exact hx

/-- Each step keeps it. -/
lemma recycled_step {a : Label E} (h : s.Recycled) (hstep : step s a = some s') : s'.Recycled := by
  cases a with
  | run =>
    simp only [step] at hstep
    split at hstep
    next hwaiter =>
      obtain rfl := Option.some.inj hstep
      exact ⟨h.last, nofun, h.executed, h.done, nofun, nofun⟩
    next => cases hstep
  | beginFunction i =>
    simp only [step] at hstep
    split at hstep
    next hfunction =>
      obtain ⟨last, hlast, rfl⟩ := Option.map_eq_some_iff.mp hstep
      have hne : WaitingTask.Label.call i (.wrap .taskHolder) ≠ (.group : WaitingTask.Label E) := by
        intro hc
        cases hc
      apply h.setLast hne hlast (fun _ => WaitingTask.wrapped_wrap hlast)
      intro hover
      rw [hfunction] at hover
      cases hover
    next => cases hstep
  | endFunction =>
    simp only [step] at hstep
    split at hstep
    next i k hfunction =>
      split at hstep
      next =>
        obtain rfl := Option.some.inj hstep
        have hwrapped := h.wrapped (by rw [hfunction]; rfl)
        exact ⟨h.last, fun _ => hwrapped, h.executed, h.done,
          fun hwaited => ⟨rfl, (h.waited hwaited).2⟩, h.returned⟩
      next => cases hstep
    next => cases hstep
  | holders l =>
    simp only [step] at hstep
    split at hstep
    next hl =>
      obtain ⟨last, hlast, rfl⟩ := Option.map_eq_some_iff.mp hstep
      have hne : l ≠ .group := by
        intro hgroup
        rw [hgroup] at hl
        cases hl
      exact h.setLast hne hlast
        (fun hbegun => WaitingTask.wrapped_step (h.wrapped hbegun) hlast) id
    next => cases hstep
  | execute =>
    obtain ⟨last, hlast, rfl⟩ := Option.map_eq_some_iff.mp hstep
    exact h.execute hlast
  | recycle =>
    simp only [step] at hstep
    split at hstep
    next => cases hstep
    next hsentries =>
      split at hstep
      next hhandle =>
        obtain rfl := Option.some.inj hstep
        exact h.recycle hsentries hhandle
      next => cases hstep
  -- these change only what `task_group::wait` waits for
  | endExecute | endOther =>
    simp only [step] at hstep
    split at hstep
    next => cases hstep
    next =>
      obtain rfl := Option.some.inj hstep
      exact ⟨h.last, h.wrapped, h.executed, h.done, h.waited, h.returned⟩
  | runHandle =>
    simp only [step] at hstep
    split at hstep
    next hhandle =>
      obtain rfl := Option.some.inj hstep
      have hlength := h.executed
      rw [hhandle] at hlength
      exact ⟨h.last, h.wrapped, hlength, h.done,
        fun hwaited => ⟨(h.waited hwaited).1, rfl⟩, h.returned⟩
    next => cases hstep
  | runOther =>
    obtain rfl := Option.some.inj hstep
    exact ⟨h.last, h.wrapped, h.executed, h.done, h.waited, h.returned⟩
  | waitReturns =>
    simp only [step] at hstep
    split at hstep
    next =>
      split at hstep
      next hdone =>
        obtain rfl := Option.some.inj hstep
        -- the assumption on `task_group::wait`
        obtain ⟨hover, -, -, -, -, hran⟩ := hdone
        exact ⟨h.last, h.wrapped, h.executed, h.done, fun _ => ⟨hover, hran⟩, nofun⟩
      next => cases hstep
    next => cases hstep
  | returns =>
    simp only [step] at hstep
    split at hstep
    next hwaiter =>
      obtain rfl := Option.some.inj hstep
      exact h.returns hwaiter
    next => cases hstep

/-- It holds in every reachable state. -/
theorem recycled (h : Reachable s) : s.Recycled := by
  refine h.invariant ?_ fun _ _ _ hs _ hstep => recycled_step hs hstep
  exact ⟨.refl, nofun, rfl, by simp, nofun, nofun⟩

/-- `recycle` finds the handle that the constructor made. -/
theorem recycles (h : Reachable s) (hsentries : s.sentries ≠ 0) :
    ∃ s', step s .recycle = some s' := by
  have hs := recycled h
  cases hhandle : s.handle with
  | deferred =>
    simp only [step, if_neg hsentries, hhandle]
    exact ⟨_, rfl⟩
  | pending | ran =>
    have hgiven : s.handle.given = 1 := by rw [hhandle]; rfl
    exact absurd (hs.given hgiven).2 hsentries

/-! ## After the wait -/

/-- When `task_group::wait` has returned no reference is left. -/
lemma refCount_of_waited (h : Reachable s) (hwaited : s.waiter.groupWaited = true) :
    s.last.task.refCount = 0 := by
  have hs := recycled h
  have hran := (hs.waited hwaited).2
  have hne := hs.executed_ne_nil (by rw [hran]; rfl)
  exact (WaitingTask.final_of_executed hs.last hne).refCount

/-- **`syncWait` never returns early.** In every state that some interleaving reaches, whoever has
copies of the holder and however they are released: when `task_group::wait` has returned, the
function is over, no holder has the task, no thread is about to give up a reference, and `execute`
has run exactly once; and what `waitNoThrow` has returned is not null exactly when some holder
reported an exception, and it is then the first one that was accepted. -/
theorem never_early (h : Reachable s) :
    (s.waiter.groupWaited = true →
      s.function = .over ∧
      (∀ (k : ℕ) (cls : WaitingTask.HolderClass),
        s.last.holders[k]? ≠ some (some ⟨cls, true⟩)) ∧
      (∀ p ∈ s.last.threads, carries p = 0) ∧
      s.last.executed.length = 1 ∧ s.done = true) ∧
    (∀ r, s.waiter = .returned r →
      (r.isSome ↔ s.last.reported ≠ []) ∧ r = s.last.winner) := by
  have hs := recycled h
  refine ⟨fun hwaited => ?_, fun r hr => ?_⟩
  · obtain ⟨hover, hran⟩ := hs.waited hwaited
    have hgiven : s.handle.given = 1 := by rw [hran]; rfl
    -- the count is zero, so neither a holder nor a thread has a part in it
    have hcount := (WaitingTask.counted hs.last).count
    rw [refCount_of_waited h hwaited] at hcount
    have hcarries : tally carries s.last.threads = 0 := by omega
    refine ⟨hover, fun k cls hk => ?_, tally_eq_zero.mp hcarries, (hs.given hgiven).1,
      hs.done.mpr (hs.executed_ne_nil hgiven)⟩
    have hlive := WaitingTask.live_pos hk
    omega
  · have hread := WaitingTask.executed_read hs.last r (hs.returned r hr)
    exact ⟨hread.2, hread.1⟩

/-- The function copies its holder and is over, a thread outside the group gives the copy up with an
exception, and only then does the group have anything to do. -/
def releasedOutside : List (Label ℕ) :=
  [.run, .holders .fork, .holders .fork, .beginFunction 0, .holders (.call 0 (.copy 0)),
    .holders (.call 0 (.destroy 0)), .holders (.advance 0), .endFunction,
    .holders (.call 1 (.doneWaiting 1 (some 7))), .holders (.advance 1), .holders (.advance 1),
    .holders (.advance 1), .holders (.advance 1), .holders (.advance 1), .execute, .recycle,
    .runHandle, .endExecute, .waitReturns, .returns]

/-- The state that it ends in. -/
def releasedEnd : State ℕ :=
  (executeAll step {} releasedOutside).getD {}

theorem never_early_releasedOutside :
    releasedEnd.waiter = .returned (some 7) ∧ releasedEnd.last.executed.length = 1 ∧
      ((some 7).isSome ↔ releasedEnd.last.reported ≠ []) := by
  have hrun : executeAll step {} releasedOutside = some releasedEnd := by decide +kernel
  have hreach : Reachable releasedEnd := RunsTo.of_executeAll releasedOutside hrun
  have hwaiter : releasedEnd.waiter = .returned (some 7) := by decide +kernel
  have hmain := never_early hreach
  exact ⟨hwaiter, (hmain.1 (by rw [hwaiter]; rfl)).2.2.2.1, (hmain.2 _ hwaiter).1⟩

/-! ## The stack of the caller -/

/-- A step is a step of the task or leaves it alone. -/
lemma last_step {a : Label E} (hstep : step s a = some s') :
    s'.last = s.last ∨ ∃ b, WaitingTask.step s.last b = some s'.last := by
  cases a with
  | beginFunction i =>
    simp only [step] at hstep
    split at hstep
    next =>
      obtain ⟨last, hlast, rfl⟩ := Option.map_eq_some_iff.mp hstep
      exact .inr ⟨_, hlast⟩
    next => cases hstep
  | holders l =>
    simp only [step] at hstep
    split at hstep
    next =>
      obtain ⟨last, hlast, rfl⟩ := Option.map_eq_some_iff.mp hstep
      exact .inr ⟨l, hlast⟩
    next => cases hstep
  | execute =>
    obtain ⟨last, hlast, rfl⟩ := Option.map_eq_some_iff.mp hstep
    exact .inr ⟨_, hlast⟩
  | runOther =>
    obtain rfl := Option.some.inj hstep
    exact .inl rfl
  | run | runHandle | returns | endExecute | endOther =>
    left
    simp only [step] at hstep
    split at hstep
    all_goals cases hstep <;> rfl
  | endFunction | recycle | waitReturns =>
    left
    simp only [step] at hstep
    split at hstep
    all_goals try split at hstep
    all_goals cases hstep <;> rfl

/-- Once `task_group::wait` has returned nothing changes the task, which lives on the stack of the
caller, and it is not executed again. -/
theorem untouched (h : Reachable s) (hwaited : s.waiter.groupWaited = true) {a : Label E}
    (hstep : step s a = some s') :
    s'.last.task = s.last.task ∧ s'.last.executed = s.last.executed := by
  rcases last_step hstep with hsame | ⟨b, hb⟩
  · rw [hsame]
    exact ⟨rfl, rfl⟩
  have hs := recycled h
  have hlast' : WaitingTask.Reachable s'.last := hs.last.tail trivial hb
  have hgiven : s.handle.given = 1 := by rw [(hs.waited hwaited).2]; rfl
  have hne := hs.executed_ne_nil hgiven
  -- a second execution would be a second hand-over
  have hgroup : b ≠ .group := by
    intro hc
    subst hc
    have hle := WaitingTask.handOvers_le_one hlast'
    have hone := (hs.given hgiven).1
    unfold WaitingTask.State.handOvers WaitingTask.State.handed at hle
    rw [(WaitingTask.executed_group hb).1, List.length_append, List.length_singleton] at hle
    omega
  have hexecuted := WaitingTask.executed_of_ne_group hgroup hb
  have hzero := refCount_of_waited h hwaited
  have hzero' := (WaitingTask.handedOver hlast').refCount_eq_zero (by rw [hexecuted]; exact hne)
  have hslot := WaitingTask.slot_step (WaitingTask.counted hs.last) hzero hb
  simp only [Prod.mk.injEq] at hslot
  refine ⟨?_, hexecuted⟩
  calc s'.last.task
      = ⟨s'.last.task.refCount, s'.last.task.ptr, s'.last.task.ptrSet⟩ := rfl
    _ = ⟨s.last.task.refCount, s.last.task.ptr, s.last.task.ptrSet⟩ := by
      rw [hzero', hzero, hslot.1, hslot.2.1]
    _ = s.last.task := rfl

/-- The wait is not held back: when the function is over, no holder has the task and nothing of the
task waits anywhere, then the handle was run. -/
theorem not_held_back (h : Reachable s) (hover : s.function = .over) (hidle : s.last.Idle)
    (hlive : s.last.liveReferences = 0) (henqueued : s.last.enqueued = 0) (hrun : s.last.run = 0)
    (hsentries : s.sentries = 0) (hpending : s.handle ≠ .pending) : s.handle = .ran := by
  have hs := recycled h
  have hwrapped := hs.wrapped (by rw [hover]; rfl)
  -- with no reference left the task was handed over, and nothing of it waits: it was executed
  have hhanded := WaitingTask.handed_of_idle hs.last hwrapped hidle
  rw [if_pos hlive] at hhanded
  have hlength := hs.executed
  unfold WaitingTask.State.handed at hhanded
  cases hhandle : s.handle with
  | deferred =>
    rw [hhandle, Handle.given] at hlength
    omega
  | pending => exact absurd hhandle hpending
  | ran => rfl

end UnifyPrototype.FinalWaitingTask
