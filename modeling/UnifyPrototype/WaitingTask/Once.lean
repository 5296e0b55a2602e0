import UnifyPrototype.WaitingTask.Failure

/-!
# A task runs once, after its last holder

The hand-over comes when no reference is left, hence when no thread can be inside
`dependentTaskFailed`. From then on `m_ptr` does not change, so the unchecked read of
`FunctorWaitingTask::execute` finds what was reported.
-/

namespace UnifyPrototype.WaitingTask

open UnifyPrototype.Utils

variable {E : Type} {s s' s₁ : State E}

/-- No operation is in progress. -/
def State.Idle (s : State E) : Prop :=
  ∀ p ∈ s.threads, p = none

instance (s : State E) : Decidable s.Idle :=
  inferInstanceAs (Decidable (∀ p ∈ s.threads, p = none))

/-- The number of holders that own the task. -/
def State.liveReferences (s : State E) : ℕ :=
  tally live s.holders

/-- How often the task was handed over, or is about to be by a thread whose decrement came to
zero. -/
def State.handOvers (s : State E) : ℕ :=
  tally handing s.threads + s.handed

/-! ## Where the hand-over comes from -/

lemma handOvers_goOn {i k : ℕ} {p : Point E} {c : Reporter}
    (hi : s.threads[i]? = some (some p)) (hp : handing (some p) = 0)
    (hthreads : s₁.threads = s.threads) (hout : s₁.handed = s.handed) :
    (State.goto i (c.goOn s₁ k)).handOvers = s.handOvers := by
  have hboth : handing (c.goOn s₁ k).2 = 0 ∧ (c.goOn s₁ k).1.threads = s₁.threads
      ∧ (c.goOn s₁ k).1.handed = s₁.handed := by
    cases c with
    | presetTaskAsFailed => exact ⟨rfl, rfl, rfl⟩
    | doneWaiting =>
      simp only [Reporter.goOn]
      split <;> exact ⟨rfl, rfl, rfl⟩
  obtain ⟨hnone, hsame, hout'⟩ := hboth
  have hset := tally_set handing (c.goOn s₁ k).2 hi
  show tally handing ((c.goOn s₁ k).1.threads.set i _) + (c.goOn s₁ k).1.handed = _
  rw [hsame, hthreads, hout', hout]
  unfold State.handOvers
  omega

/-- Only a decrement that reaches zero starts a hand-over. -/
lemma handOvers_advance {i : ℕ} {p : Point E} (hi : s.threads[i]? = some (some p))
    (hcarried : carries (some p) ≤ s.task.refCount) :
    (State.goto i (p.step s)).handOvers ≤ s.handOvers ∨
      (∃ cls, p = .decrement cls) ∧ s.task.refCount = 1 := by
  have hset := tally_set handing (p.step s).2 hi
  cases p with
  | exchange k e c =>
    refine .inl ?_
    simp only [Point.step]
    split
    · have hset := tally_set handing (some (.setPtr k e c)) hi
      exact (congrArg (· + s.handed) hset).le
    · exact (handOvers_goOn hi rfl rfl rfl).le
  | setPtr k e c => exact .inl (congrArg (· + s.handed) hset).le
  | setState k c =>
    have hsame : (State.goto i (c.goOn { s with task := { s.task with ptrSet := .set } } k)).handOvers
        = s.handOvers := handOvers_goOn hi rfl rfl rfl
    exact .inl hsame.le
  | decrement cls =>
    -- the decrement that comes to zero is that of the last reference
    by_cases hzero : 0 = s.task.refCount - 1
    · refine .inr ⟨⟨cls, rfl⟩, ?_⟩
      have hone : 1 ≤ s.task.refCount := hcarried
      omega
    · have hnone : (Point.step s (.decrement cls)).2 = none := by
        simp [Point.step, Task.decrementRefCount, hzero]
      refine .inl ?_
      show tally handing (s.threads.set i _) + s.handed ≤ tally handing s.threads + s.handed
      rw [hnone] at hset ⊢
      exact (congrArg (· + s.handed) hset).le
  | handOver cls =>
    refine .inl ?_
    cases cls <;>
    · show tally handing (s.threads.set i none) + _ ≤ tally handing s.threads + s.handed
      simp only [Point.step, handing] at hset
      simp only [State.handed, State.goto, Point.step]
      omega
  | release k => exact .inl (congrArg (· + s.handed) hset).le

lemma handOvers_step {b : Label E} (hcounted : s.Counted) (hstep : step s b = some s')
    (hmore : s.handOvers < s'.handOvers) :
    ∃ i cls, b = .advance i ∧ s.threads[i]? = some (some (.decrement cls)) ∧
      s.task.refCount = 1 ∧ s'.task.refCount = 0 := by
  cases b with
  | fork =>
    obtain rfl := Option.some.inj hstep
    unfold State.handOvers at hmore
    rw [tally_append] at hmore
    exact absurd hmore (lt_irrefl _)
  | call i op =>
    simp only [step] at hstep
    split at hstep
    next hi =>
      obtain ⟨⟨s₁, p⟩, hstart, rfl⟩ := Option.map_eq_some_iff.mp hstep
      have hstarted := started hstart
      have hset := tally_set handing p hi
      rw [handing_of_begins hstarted.begins] at hset
      -- a call begins with a point that hands nothing over
      have hsame : (State.goto i (s₁, p)).handOvers = s.handOvers := by
        show tally handing (s₁.threads.set i p) + s₁.handed = _
        rw [hstarted.threads, handed_eq hstarted.out]
        exact congrArg (· + s.handed) hset
      omega
    next => cases hstep
  | advance i =>
    simp only [step] at hstep
    split at hstep
    next pt hi =>
      obtain rfl := Option.some.inj hstep
      -- a point that releases a reference has one
      have hcarried : carries (some pt) ≤ s.task.refCount := by
        have hle := le_tally carries hi
        have hcount := hcounted.count
        omega
      rcases handOvers_advance hi hcarried with hle | ⟨⟨cls, rfl⟩, hone⟩
      · exact absurd hmore (not_lt.mpr hle)
      · refine ⟨i, cls, rfl, hi, hone, ?_⟩
        show s.task.refCount - 1 = 0
        omega
    next => cases hstep
  | arena =>
    simp only [step] at hstep
    split at hstep
    next => cases hstep
    next =>
      obtain rfl := Option.some.inj hstep
      unfold State.handOvers State.handed at hmore
      dsimp only at hmore
      omega
  | group =>
    simp only [step] at hstep
    split at hstep
    next => cases hstep
    next =>
      obtain rfl := Option.some.inj hstep
      unfold State.handOvers State.handed at hmore
      simp only [List.length_append, List.length_singleton] at hmore
      omega

/-! ## The state at the hand-over -/

/-- Without references no thread uses a holder. -/
lemma State.Counted.quiet (h : s.Counted) (hzero : s.task.refCount = 0) {i : ℕ} {p : Point E}
    (hi : s.threads[i]? = some (some p)) : p.holder = none := by
  rcases hp : p.holder with _ | k
  · rfl
  · obtain ⟨cls, hx⟩ := h.used i p k hi hp
    have hlive := live_pos hx
    have hcount := h.count
    omega

/-- What the hand-over finds, and everything after it. -/
structure State.Final (s : State E) : Prop where
  refCount : s.task.refCount = 0
  quiet : ∀ p, some p ∈ s.threads → p.reports = false
  notSetting : s.task.ptrSet ≠ .setting
  failed : s.task.ptr.isSome ↔ s.reported ≠ []
  winner : s.task.ptr = s.winner
  checked : s.task.uncheckedExceptionPtr = s.task.exceptionPtr

lemma final_of_refCount (hcounted : s.Counted) (hfailed : s.Failed) (hzero : s.task.refCount = 0) :
    s.Final := by
  have hquiet : ∀ p, some p ∈ s.threads → p.reports = false := by
    intro p hp
    obtain ⟨i, hi⟩ := List.getElem?_of_mem hp
    have hnone := hcounted.quiet hzero hi
    cases p <;> first | rfl | cases hnone
  have hsetting : s.task.ptrSet ≠ .setting := by
    intro hc
    have hone := hfailed.setting
    rw [if_pos hc] at hone
    have hno : tally setting s.threads = 0 := by
      apply tally_eq_zero.mpr
      intro q hq
      apply setting_eq_zero
      intro p hp
      exact hquiet p (hp ▸ hq)
    omega
  by_cases hunset : s.task.ptrSet = .unset
  · -- nothing was reported: a reporter would still be before its exchange
    obtain ⟨hptr, hwinner⟩ := hfailed.unset hunset
    have hnone : s.reported = [] := by
      by_contra hne
      obtain ⟨i, k, e, c, hi⟩ := hfailed.pending hne hunset
      cases hcounted.quiet hzero hi
    refine ⟨hzero, hquiet, hsetting, by simp [hptr, hnone], hptr.trans hwinner.symm, ?_⟩
    simp [Task.uncheckedExceptionPtr, Task.exceptionPtr, hunset, hptr]
  · have hset : s.task.ptrSet = .set := by
      cases hq : s.task.ptrSet with
      | unset => exact absurd hq hunset
      | setting => exact absurd hq hsetting
      | set => rfl
    have hptr := hfailed.set hset
    obtain ⟨e, he⟩ := Option.ne_none_iff_exists'.mp (hfailed.won hunset)
    refine ⟨hzero, hquiet, hsetting, ?_, hptr, ?_⟩
    · have hmem := hfailed.winner e he
      simp [hptr, he, List.ne_nil_of_mem hmem]
    · simp [Task.uncheckedExceptionPtr, Task.exceptionPtr, hset]

lemma final_of_handOvers (h : Reachable s) (hhanded : s.handOvers ≠ 0) : s.Final := by
  refine final_of_refCount (counted h) (failed h) ?_
  have honce := (handedOver h).once
  by_contra hne
  rw [if_neg fun hc => hne hc.2] at honce
  exact hhanded honce

/-! ## The execution -/

/-- The exception is stored only while a holder is in use. -/
lemma slot_step {b : Label E} (hcounted : s.Counted) (hzero : s.task.refCount = 0)
    (hstep : step s b = some s') :
    (s'.task.ptr, s'.task.ptrSet, s'.winner) = (s.task.ptr, s.task.ptrSet, s.winner) := by
  cases b with
  | fork =>
    obtain rfl := Option.some.inj hstep
    rfl
  | call i op =>
    simp only [step] at hstep
    split at hstep
    next hi =>
      obtain ⟨⟨s₁, p⟩, hstart, rfl⟩ := Option.map_eq_some_iff.mp hstep
      exact (started hstart).slot
    next => cases hstep
  | advance i =>
    simp only [step] at hstep
    split at hstep
    next pt hi =>
      obtain rfl := Option.some.inj hstep
      have hnone := hcounted.quiet hzero hi
      cases pt with
      | exchange | setPtr | setState | release => cases hnone
      | decrement => rfl
      | handOver cls => cases cls <;> rfl
    next => cases hstep
  | arena | group =>
    simp only [step] at hstep
    split at hstep
    next => cases hstep
    next =>
      obtain rfl := Option.some.inj hstep
      rfl

/-- What the end of `dependentTaskFailed` leaves alone. -/
lemma frame_goOn (c : Reporter) (k : ℕ) :
    ((c.goOn s k).1.wrapped, (c.goOn s k).1.executed) = (s.wrapped, s.executed) := by
  cases c with
  | presetTaskAsFailed => rfl
  | doneWaiting =>
    simp only [Reporter.goOn]
    split <;> rfl

/-- What an atomic operation inside a member function leaves alone. -/
lemma frame_advance (pt : Point E) :
    ((pt.step s).1.wrapped, (pt.step s).1.executed) = (s.wrapped, s.executed) := by
  cases pt with
  | exchange k e c =>
    simp only [Point.step]
    split
    · rfl
    · exact frame_goOn c k
  | setPtr | decrement | release => rfl
  | setState k c => exact frame_goOn c k
  | handOver cls => cases cls <;> rfl

/-- Only the group executes the task. -/
lemma executed_of_ne_group {b : Label E} (hb : b ≠ .group) (hstep : step s b = some s') :
    s'.executed = s.executed := by
  cases b with
  | fork =>
    obtain rfl := Option.some.inj hstep
    rfl
  | call i op =>
    simp only [step] at hstep
    split at hstep
    next hi =>
      obtain ⟨⟨s₁, p⟩, hstart, rfl⟩ := Option.map_eq_some_iff.mp hstep
      exact congrArg (Prod.snd ∘ Prod.snd) (started hstart).out
    next => cases hstep
  | advance i =>
    simp only [step] at hstep
    split at hstep
    next pt hi =>
      obtain rfl := Option.some.inj hstep
      exact congrArg Prod.snd (frame_advance pt)
    next => cases hstep
  | arena =>
    simp only [step] at hstep
    split at hstep
    next => cases hstep
    next =>
      obtain rfl := Option.some.inj hstep
      rfl
  | group => exact absurd rfl hb

/-- The first holder is made once. -/
lemma wrapped_step {b : Label E} (hwrapped : s.wrapped = true) (hstep : step s b = some s') :
    s'.wrapped = true := by
  cases b with
  | fork =>
    obtain rfl := Option.some.inj hstep
    exact hwrapped
  | call i op =>
    simp only [step] at hstep
    split at hstep
    next hi =>
      obtain ⟨⟨s₁, p⟩, hstart, rfl⟩ := Option.map_eq_some_iff.mp hstep
      cases (started hstart).counts with
      | same _ hsame => exact hsame.trans hwrapped
      | again _ hsame => exact hsame.trans hwrapped
      | first _ hbefore => exact absurd (hbefore.symm.trans hwrapped) Bool.false_ne_true
    next => cases hstep
  | advance i =>
    simp only [step] at hstep
    split at hstep
    next pt hi =>
      obtain rfl := Option.some.inj hstep
      exact (congrArg Prod.fst (frame_advance pt)).trans hwrapped
    next => cases hstep
  | arena | group =>
    simp only [step] at hstep
    split at hstep
    next => cases hstep
    next =>
      obtain rfl := Option.some.inj hstep
      exact hwrapped

lemma wrapped_wrap {i : ℕ} {cls : HolderClass} (hstep : step s (.call i (.wrap cls)) = some s') :
    s'.wrapped = true := by
  simp only [step] at hstep
  split at hstep
  next =>
    obtain ⟨⟨s₁, p⟩, hstart, rfl⟩ := Option.map_eq_some_iff.mp hstep
    simp only [Op.start] at hstart
    split at hstart
    next => cases hstart
    next =>
      obtain ⟨rfl, rfl⟩ := Prod.mk.inj (Option.some.inj hstart)
      rfl
  next => cases hstep

/-- It gives the functor what `m_ptr` points to. -/
lemma executed_group (hstep : step s .group = some s') :
    s'.executed = s.executed ++ [s.task.ptr] ∧ s'.task = s.task := by
  simp only [step] at hstep
  split at hstep
  next => cases hstep
  next =>
    obtain rfl := Option.some.inj hstep
    exact ⟨rfl, rfl⟩

/-- The task was handed over before it was executed, so no reference was left. -/
lemma State.HandedOver.refCount_eq_zero (h : s.HandedOver) (hne : s.executed ≠ []) :
    s.task.refCount = 0 := by
  by_contra hpos
  have hsum := h.once
  rw [if_neg fun hc => hpos hc.2] at hsum
  have hlength := List.length_pos_iff.mpr hne
  unfold State.handed at hsum
  omega

lemma executed_step {b : Label E} (hcounted : s.Counted) (honce : s.HandedOver)
    (h : ∀ x ∈ s.executed, x = s.task.ptr) (hstep : step s b = some s') :
    ∀ x ∈ s'.executed, x = s'.task.ptr := by
  intro x hx
  by_cases hb : b = .group
  · subst hb
    obtain ⟨hexecuted, htask⟩ := executed_group hstep
    rw [hexecuted] at hx
    rw [htask]
    rcases List.mem_append.mp hx with hx | hx
    · exact h x hx
    · exact List.mem_singleton.mp hx
  · rw [executed_of_ne_group hb hstep] at hx
    have hzero := honce.refCount_eq_zero (List.ne_nil_of_mem hx)
    have hptr : s'.task.ptr = s.task.ptr := congrArg Prod.fst (slot_step hcounted hzero hstep)
    rw [hptr]
    exact h x hx

theorem executed (h : Reachable s) : ∀ x ∈ s.executed, x = s.task.ptr := by
  have hboth : ∀ {t : State E}, Reachable t → t.Counted ∧ t.HandedOver :=
    fun ht => ⟨counted ht, handedOver ht⟩
  refine h.invariant_of hboth ?_ fun _ _ _ hb hs _ hstep => executed_step hb.1 hb.2 hs hstep
  simp

/-- What holds when the task was executed. -/
lemma final_of_executed (h : Reachable s) (hne : s.executed ≠ []) : s.Final :=
  final_of_refCount (counted h) (failed h) ((handedOver h).refCount_eq_zero hne)

/-- The execution read whether something was reported. -/
lemma executed_read (h : Reachable s) :
    ∀ x ∈ s.executed, x = s.winner ∧ (x.isSome ↔ s.reported ≠ []) := by
  intro x hx
  have hfinal := final_of_executed h (List.ne_nil_of_mem hx)
  rw [executed h x hx]
  exact ⟨hfinal.winner, hfinal.failed⟩

lemma handOvers_le_one (h : Reachable s) : s.handOvers ≤ 1 := by
  unfold State.handOvers
  rw [(handedOver h).once]
  split <;> omega

/-- Between operations only holders have references. -/
lemma refCount_of_idle (h : Reachable s) (hidle : s.Idle) :
    s.task.refCount = s.liveReferences := by
  have hcount := (counted h).count
  have hcarries : tally carries s.threads = 0 :=
    tally_eq_zero.mpr fun p hp => by rw [hidle p hp]; rfl
  rw [hcarries] at hcount
  exact hcount

/-- Between operations the task has been handed over if no holder has it. -/
lemma handed_of_idle (h : Reachable s) (hwrapped : s.wrapped = true) (hidle : s.Idle) :
    s.handed = if s.liveReferences = 0 then 1 else 0 := by
  have honce := (handedOver h).once
  have hhanding : tally handing s.threads = 0 :=
    tally_eq_zero.mpr fun p hp => by rw [hidle p hp]; rfl
  rw [hhanding, Nat.zero_add, refCount_of_idle h hidle] at honce
  rw [honce]
  simp [hwrapped]

/-! ## The task runs once -/

/-- **A waiting task runs exactly once, after its last holder, and sees a reported failure.** In
every state that some interleaving reaches: when no operation is in progress the reference count is
the number of live references; the task is handed over at most once, and, once it has holders and no
operation is in progress, it has been handed over exactly when no live reference is left; what hands
it over is the decrement that reaches zero. At that moment and ever after no thread is inside
`dependentTaskFailed`, `m_ptr` is null exactly when nobody reported an exception, it is otherwise the
exception of the thread that won the exchange, and that is what the one execution reads, which
happens when the arena and the group have done their part. -/
theorem runs_once (h : Reachable s) :
    (s.Idle → s.task.refCount = s.liveReferences) ∧
    s.handOvers ≤ 1 ∧
    (s.wrapped = true → s.Idle → (s.handed = 1 ↔ s.liveReferences = 0)) ∧
    (∀ b s', step s b = some s' → s.handOvers < s'.handOvers →
      ∃ i cls, b = .advance i ∧ s.threads[i]? = some (some (.decrement cls)) ∧
        s.task.refCount = 1 ∧ s'.task.refCount = 0) ∧
    (s.handOvers = 1 → s.Final) ∧
    s.executed.length ≤ 1 ∧
    (∀ x ∈ s.executed, x = s.winner ∧ (x.isSome ↔ s.reported ≠ [])) ∧
    (s.wrapped = true → s.Idle → s.liveReferences = 0 → s.enqueued = 0 → s.run = 0 →
      s.executed = [s.winner]) := by
  have hle := handOvers_le_one h
  have hread := executed_read h
  refine ⟨refCount_of_idle h, hle, fun hwrapped hs => ?_,
    fun b s' => handOvers_step (counted h),
    fun hone => final_of_handOvers h (by omega), ?_, hread, fun hwrapped hs hlive henq hrun => ?_⟩
  · rw [handed_of_idle h hwrapped hs]
    split <;> simp_all
  · unfold State.handOvers State.handed at hle
    omega
  · have hone := handed_of_idle h hwrapped hs
    rw [if_pos hlive] at hone
    unfold State.handed at hone
    obtain ⟨x, hx⟩ := List.length_eq_one_iff.mp (show s.executed.length = 1 by omega)
    rw [hx, (hread x (by simp [hx])).1]

/-- A holder is copied; the copy reports an exception and lets go, and the first holder is destroyed
with another one in hand. -/
def failingRun : List (Label ℕ) :=
  [.fork, .fork, .call 0 (.wrap .taskHolder), .call 0 (.copy 0), .call 1 (.doneWaiting 1 (some 7)),
    .call 0 (.presetTaskAsFailed 0 (some 8)), .advance 1, .advance 0, .advance 1, .advance 1,
    .advance 1, .call 0 (.destroy 0), .advance 0, .advance 0, .group]

/-- The state that it ends in. -/
def failingEnd : State ℕ :=
  (executeAll step {} failingRun).getD {}

theorem runs_once_failingRun :
    failingEnd.executed = [some 7] ∧ failingEnd.Idle ∧ failingEnd.task.refCount = 0 ∧
      failingEnd.executed.length ≤ 1 := by
  have hrun : executeAll step {} failingRun = some failingEnd := by decide +kernel
  have hreach : Reachable failingEnd := RunsTo.of_executeAll failingRun hrun
  have hidle : failingEnd.Idle := by decide +kernel
  have hmain := runs_once hreach
  refine ⟨by decide +kernel, hidle, ?_, hmain.2.2.2.2.2.1⟩
  rw [hmain.1 hidle]
  decide +kernel

end UnifyPrototype.WaitingTask
