import UnifyPrototype.WaitingTask.Once

/-!
# The first failure

`m_ptr` is an ordinary member that any thread may read by `exceptionPtr` while others report
failures. It is written once, by the thread that won the exchange of `m_ptrSet`, and at that time
nobody reads it; whoever has found `kSet` reads the same exception however late it does so.
-/

namespace UnifyPrototype.WaitingTask

open UnifyPrototype.Utils

variable {E : Type} {s s' t : State E} {b : Label E} {e : E}

/-- One for a thread whose next operation writes `m_ptr`. -/
def storing : Option (Point E) → ℕ
  | some (.setPtr _ _ _) => 1
  | _ => 0

def State.storing (s : State E) : ℕ :=
  tally WaitingTask.storing s.threads

lemma storing_le_setting (p : Option (Point E)) : WaitingTask.storing p ≤ setting p := by
  cases p with
  | none => exact le_rfl
  | some pt => cases pt <;> simp [WaitingTask.storing, setting]

lemma storing_eq_zero {p : Option (Point E)} (hp : ∀ pt, p = some pt → pt.reports = false) :
    WaitingTask.storing p = 0 :=
  Nat.le_zero.mp ((setting_eq_zero hp) ▸ storing_le_setting p)

/-- What a step does to `m_ptr` and `m_ptrSet`. -/
inductive SlotStep (s s' : State E) : Prop
  | same (hptr : s'.task.ptr = s.task.ptr) (hset : s'.task.ptrSet = s.task.ptrSet)
      (hwinner : s'.winner = s.winner) (hstoring : s'.storing = s.storing)
  | won (hunset : s.task.ptrSet = .unset) (hset : s'.task.ptrSet = .setting)
      (hptr : s'.task.ptr = s.task.ptr)
  | stored (hset : s'.task.ptrSet = s.task.ptrSet) (hwinner : s'.winner = s.winner)
      (hptr : s'.task.ptr = s.winner) (hstoring : s'.storing + 1 = s.storing)
  | finished (hset : s'.task.ptrSet = .set) (hptr : s'.task.ptr = s.task.ptr)
      (hwinner : s'.winner = s.winner) (hstoring : s'.storing = s.storing)

/-- The thread that moves was not about to write `m_ptr` and is not now. -/
lemma storing_goto {i : ℕ} {p : Option (Point E)} {r : State E × Option (Point E)}
    (hi : s.threads[i]? = some p) (hthreads : r.1.threads = s.threads)
    (hp : WaitingTask.storing p = 0) (hr : WaitingTask.storing r.2 = 0) :
    (State.goto i r).storing = s.storing := by
  have hset := tally_set WaitingTask.storing r.2 hi
  show tally WaitingTask.storing (r.1.threads.set i r.2) = tally WaitingTask.storing s.threads
  rw [hthreads]
  omega

lemma storing_of_begins {s₁ : State E} {p : Option (Point E)} (h : Begins s s₁ p) :
    WaitingTask.storing p = 0 := by
  cases h <;> rfl

lemma slot_advance (hfailed : s.Failed) {i : ℕ} {p : Point E} (hi : s.threads[i]? = some (some p)) :
    SlotStep s (State.goto i (p.step s)) := by
  cases p with
  | exchange k e c =>
    by_cases hunset : s.task.ptrSet = .unset
    · apply SlotStep.won hunset
      · show (Point.step s (.exchange k e c)).1.task.ptrSet = .setting
        rw [Point.step, if_pos hunset]
      · show (Point.step s (.exchange k e c)).1.task.ptr = s.task.ptr
        rw [Point.step, if_pos hunset]
    · have hlost : Point.step s (.exchange k e c) = c.goOn s k := by
        rw [Point.step, if_neg hunset]
      obtain ⟨hp', hthreads, htask, hwinner, -⟩ := goOn_cases s k c
      rw [hlost]
      exact .same (congrArg Task.ptr htask) (congrArg Task.ptrSet htask) hwinner
        (storing_goto hi hthreads rfl (storing_eq_zero hp'))
  | setPtr k e c =>
    have hset := tally_set WaitingTask.storing (some (.setState k c)) hi
    refine .stored rfl rfl (hfailed.setPtr i k e c hi).symm ?_
    show tally WaitingTask.storing (s.threads.set i (some (.setState k c))) + 1
      = tally WaitingTask.storing s.threads
    simp only [WaitingTask.storing] at hset
    omega
  | setState k c =>
    obtain ⟨hp', hthreads, htask, hwinner, -⟩ :=
      goOn_cases { s with task := { s.task with ptrSet := .set } } k c
    have hset : (Point.step s (.setState k c)).1.task.ptrSet = .set := congrArg Task.ptrSet htask
    have hptr : (Point.step s (.setState k c)).1.task.ptr = s.task.ptr :=
      (congrArg Task.ptr htask :)
    exact .finished hset hptr hwinner (storing_goto hi hthreads rfl (storing_eq_zero hp'))
  | decrement cls =>
    refine .same rfl rfl rfl ?_
    apply storing_goto hi rfl rfl
    simp only [Point.step]
    split <;> rfl
  | handOver cls =>
    cases cls with
    | taskHolder => exact .same rfl rfl rfl (storing_goto hi rfl rfl rfl)
    | arenaHolder => exact .same rfl rfl rfl (storing_goto hi rfl rfl rfl)
  | release k => exact .same rfl rfl rfl (storing_goto hi rfl rfl rfl)

lemma slotStep (hfailed : s.Failed) (hstep : step s b = some s') : SlotStep s s' := by
  cases b with
  | fork =>
    obtain rfl := Option.some.inj hstep
    refine .same rfl rfl rfl ?_
    show tally WaitingTask.storing (s.threads ++ [none]) = tally WaitingTask.storing s.threads
    rw [tally_append]
    rfl
  | call i op =>
    simp only [step] at hstep
    split at hstep
    next hi =>
      obtain ⟨⟨s₁, p⟩, hstart, rfl⟩ := Option.map_eq_some_iff.mp hstep
      have hstarted := started hstart
      have hslot := hstarted.slot
      simp only [Prod.mk.injEq] at hslot
      exact .same hslot.1 hslot.2.1 hslot.2.2
        (storing_goto hi hstarted.threads rfl (storing_of_begins hstarted.begins))
    next => cases hstep
  | advance i =>
    simp only [step] at hstep
    split at hstep
    next pt hi =>
      obtain rfl := Option.some.inj hstep
      exact slot_advance hfailed hi
    next => cases hstep
  | arena | group =>
    simp only [step] at hstep
    split at hstep
    next => cases hstep
    next =>
      obtain rfl := Option.some.inj hstep
      exact .same rfl rfl rfl rfl

/-! ## What stays -/

lemma storing_le_one (h : s.Failed) : s.storing ≤ if s.task.ptrSet = .setting then 1 else 0 := by
  rw [← h.setting]
  exact tally_le_tally fun p _ => storing_le_setting p

/-- The writer of `m_ptr` finds it null. -/
def State.Blank (s : State E) : Prop :=
  s.storing ≠ 0 → s.task.ptr = none

lemma blank_step (hfailed : s.Failed) (h : s.Blank) (hstep : step s b = some s') : s'.Blank := by
  intro hne
  cases slotStep hfailed hstep with
  | same hptr _ _ hstoring =>
    rw [hstoring] at hne
    rw [hptr, h hne]
  | won hunset _ hptr => rw [hptr, (hfailed.unset hunset).1]
  | stored _ _ _ hstoring =>
    have hle := storing_le_one hfailed
    split at hle <;> omega
  | finished _ hptr _ hstoring =>
    rw [hstoring] at hne
    rw [hptr, h hne]

theorem blank (h : Reachable s) : s.Blank :=
  h.invariant_of failed (fun hne => absurd rfl hne)
    fun _ _ _ hfailed hblank _ hstep => blank_step hfailed hblank hstep

/-- What has been settled in `s` is so in `t`. -/
structure Settled (s t : State E) : Prop where
  ptr : ∀ e, s.task.ptr = some e → t.task.ptr = some e
  winner : ∀ e, s.winner = some e → t.winner = some e
  set : s.task.ptrSet = .set → t.task.ptrSet = .set

lemma Settled.refl (s : State E) : Settled s s :=
  ⟨fun _ he => he, fun _ he => he, fun hs => hs⟩

lemma Settled.trans (h : Settled s s') (h' : Settled s' t) : Settled s t :=
  ⟨fun e he => h'.ptr e (h.ptr e he), fun e he => h'.winner e (h.winner e he),
    fun hs => h'.set (h.set hs)⟩

lemma settled_step (hfailed : s.Failed) (hblank : s.Blank) (hstep : step s b = some s') :
    Settled s s' := by
  cases slotStep hfailed hstep with
  | same hptr hset hwinner _ =>
    exact ⟨fun e he => hptr.trans he, fun e he => hwinner.trans he, fun hs => hset.trans hs⟩
  | won hunset _ hptr =>
    refine ⟨fun e he => hptr.trans he, fun e he => ?_, fun hs => ?_⟩
    · exact absurd ((hfailed.unset hunset).2.symm.trans he) (by simp)
    · exact absurd (hunset.symm.trans hs) (by decide)
  | stored hset hwinner _ hstoring =>
    refine ⟨fun e he => ?_, fun e he => hwinner.trans he, fun hs => hset.trans hs⟩
    exact absurd ((hblank (by omega)).symm.trans he) (by simp)
  | finished hset hptr hwinner _ =>
    exact ⟨fun e he => hptr.trans he, fun e he => hwinner.trans he, fun _ => hset⟩

lemma settled (h : Reachable s) (hrun : Reaches step s t) : Settled s t := by
  apply hrun.invariant_of (J := Reachable) (fun hrest => h.trans hrest) (Settled.refl s)
  intro u a u' hu hsettled _ hstep
  exact hsettled.trans (settled_step (failed hu) (blank hu) hstep)

/-- No thread is inside `dependentTaskFailed`. -/
def State.Quiet (s : State E) : Prop :=
  ∀ (i : ℕ) (p : Point E), s.threads[i]? = some (some p) → p.reports = false

lemma exceptionPtr_of_quiet (h : s.Failed) (hquiet : s.Quiet) :
    s.task.exceptionPtr.isSome ↔ s.reported ≠ [] := by
  have hsetting : s.task.ptrSet ≠ .setting := by
    intro hc
    have hone := h.setting
    rw [if_pos hc] at hone
    have hno : tally setting s.threads = 0 := by
      apply tally_eq_zero.mpr
      intro q hq
      obtain ⟨i, hi⟩ := List.getElem?_of_mem hq
      apply setting_eq_zero
      intro p hp
      exact hquiet i p (hp ▸ hi)
    omega
  unfold Task.exceptionPtr
  constructor
  · intro hsome
    split at hsome
    next hset =>
      obtain ⟨e, he⟩ := Option.isSome_iff_exists.mp hsome
      exact List.ne_nil_of_mem (h.winner e ((h.set hset).symm.trans he))
    next => cases hsome
  · intro hne
    have hset : s.task.ptrSet = .set := by
      cases hq : s.task.ptrSet with
      | unset =>
        obtain ⟨i, k, e, c, hi⟩ := h.pending hne hq
        exact absurd (hquiet i _ hi) (by simp [Point.reports])
      | setting => exact absurd hq hsetting
      | set => rfl
    rw [if_pos hset, h.set hset]
    exact Option.isSome_iff_ne_none.mpr (h.won (by rw [hset]; decide))

/-- **The first failure settles what a task says.** In every reachable state at most one thread is
about to write `m_ptr`; it then finds it null, and neither `exceptionPtr` nor an execution of the
task reads it. From the moment that `m_ptrSet` is `kSet`, the pointer is never written again, so
that what `exceptionPtr` has once returned it always returns. And when no thread is inside
`dependentTaskFailed`, it returns an exception if and only if one was reported. -/
theorem failure_settles (h : Reachable s) (hrun : Reaches step s t) :
    s.storing ≤ 1 ∧
    (s.storing ≠ 0 → s.task.ptr = none ∧ s.task.ptrSet = .setting ∧ s.handOvers = 0) ∧
    (s.task.ptrSet = .set → t.task.ptrSet = .set ∧ t.task.ptr = s.task.ptr ∧ t.storing = 0) ∧
    (∀ e, s.task.exceptionPtr = some e → e ∈ s.reported ∧ t.task.exceptionPtr = some e) ∧
    (s.Quiet → (s.task.exceptionPtr.isSome ↔ s.reported ≠ [])) := by
  have hfailed := failed h
  have hlater := failed (h.trans hrun)
  have hsettled := settled h hrun
  have hle := storing_le_one hfailed
  have hkept : s.task.ptrSet = .set → t.task.ptr = s.task.ptr := fun hset => by
    obtain ⟨e, he⟩ := Option.ne_none_iff_exists'.mp (hfailed.won (by rw [hset]; decide))
    rw [hfailed.set hset, he]
    exact hsettled.ptr e ((hfailed.set hset).trans he)
  refine ⟨?_, fun hne => ⟨blank h hne, ?_, ?_⟩, fun hset => ⟨hsettled.set hset, hkept hset, ?_⟩,
    fun e he => ?_, exceptionPtr_of_quiet hfailed⟩
  · split at hle <;> omega
  · by_contra hsetting
    rw [if_neg hsetting] at hle
    omega
  · by_contra hhanded
    have hfinal := final_of_handOvers h hhanded
    rw [if_neg hfinal.notSetting] at hle
    omega
  · have hle := storing_le_one hlater
    rw [hsettled.set hset, if_neg (by decide)] at hle
    omega
  · unfold Task.exceptionPtr at he ⊢
    split at he
    next hset =>
      rw [if_pos (hsettled.set hset), hkept hset]
      exact ⟨hfailed.winner e ((hfailed.set hset).symm.trans he), he⟩
    next => cases he

/-- The second thread has reported an exception, and the first one is about to report another. -/
def firstReported : State ℕ :=
  (executeAll step {} (failingRun.take 12)).getD {}

theorem failure_settles_firstReported : firstReported.task.exceptionPtr = some 7 ∧
    firstReported.reported = [7, 8] ∧ failingEnd.task.exceptionPtr = some 7 := by
  have hrun : executeAll step {} (failingRun.take 12) = some firstReported := by decide +kernel
  have hrest : executeAll step firstReported (failingRun.drop 12) = some failingEnd := by
    decide +kernel
  have hfirst : firstReported.task.exceptionPtr = some 7 := by decide +kernel
  have hmain := failure_settles (RunsTo.of_executeAll _ hrun) (RunsTo.of_executeAll _ hrest)
  exact ⟨hfirst, by decide +kernel, (hmain.2.2.2.1 7 hfirst).2⟩

end UnifyPrototype.WaitingTask
