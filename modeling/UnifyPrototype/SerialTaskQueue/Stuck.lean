import UnifyPrototype.SerialTaskQueue.Progress
import UnifyPrototype.SerialTaskQueue.Teardown

/-!
# The destructor of a paused queue

The destructor waits when a task is running, also when the queue is paused. Then nobody takes the task
that it pushes: `pickNextTask` gives up, and nobody calls `resume`.
-/

namespace UnifyPrototype.SerialTaskQueue

open UnifyPrototype.Utils

variable {Q α : Type} [DecidableEq Q] {s s' : Teardown Q α} {q : Q} {a : TeardownLabel Q α}

/-! ## The condition -/

/-- When the destructor finds a chosen task, the queue is not paused. -/
def waitsUnpaused (q : Q) (s : Teardown Q α) : TeardownLabel Q α → Bool
  | .advance =>
    match s.destructor with
    | some (_, .readChosen _) =>
      !(s.program.queue q).taskChosen || (s.program.queue q).pauseCount == 0
    | _ => true
  | _ => true

/-- The destructor is going to wait, or waits. -/
def DestructorPoint.waits : DestructorPoint → Bool
  | .readPauseCount isTaskChosen => isTaskChosen
  | .push | .wait => true
  | _ => false

/-- It waits only for a queue that is not paused. -/
def Teardown.Unpaused (q : Q) (s : Teardown Q α) : Prop :=
  ∀ i p, s.destructor = some (i, p) → p.waits = true → (s.program.queue q).pauseCount = 0

/-- The queue stays unpaused, if the destructor waits for one that is not paused. -/
lemma unpaused_step (h : s.Sound q) (hreach : Reachable s.program) (hs : s.Unpaused q)
    (hok : waitsUnpaused q s a = true) (hstep : Teardown.step q s a = some s') : s'.Unpaused q := by
  cases Teardown.steps hstep with
  | @program b p hpermits hp =>
    intro i pt hpoint hwaits
    have hzero := hs i pt hpoint hwaits
    show (p.queue q).pauseCount = 0
    cases program_at hpermits hp with
    | same hqueue | finished g t hmem hqueue =>
      rw [hqueue]
      exact hzero
    | called hnone => cases hnone.symm.trans hpoint
    | moved j n r hlabel hnext hmem hr hqueue =>
      rw [hqueue, pauseCount_moved h (apart hreach) hpoint hmem hr]
      exact hzero
  | destroy i | readEmpty i =>
    intro j p hpoint hwaits
    obtain ⟨-, rfl⟩ := Prod.mk.inj (Option.some.inj hpoint)
    cases hwaits
  | readChosen i isEmpty hpoint =>
    intro j p hpoint' hwaits
    -- it waits only if a task is chosen, and then the condition says that nobody pauses
    have hpaused : (s.program.queue q).taskChosen = true → (s.program.queue q).pauseCount = 0 := by
      intro hchosen
      simpa [waitsUnpaused, hpoint, hchosen] using hok
    obtain ⟨-, rfl⟩ := Prod.mk.inj (Option.some.inj hpoint')
    refine hpaused ?_
    by_contra hchosen
    rw [Bool.not_eq_true] at hchosen
    cases isEmpty <;> simp [hchosen, DestructorPoint.waits] at hwaits
  | readPauseCount i isTaskChosen hpoint =>
    intro j p hpoint' hwaits
    obtain ⟨-, rfl⟩ := Prod.mk.inj (Option.some.inj hpoint')
    show (s.program.queue q).pauseCount = 0
    -- a paused queue makes it push, unless it was going to wait anyway
    by_contra hne
    cases isTaskChosen with
    | true => exact hne (hs i _ hpoint rfl)
    | false => simp [hne, DestructorPoint.waits] at hwaits
  | @push i p hpoint hp =>
    intro j p' _ _
    show (p.queue q).pauseCount = 0
    rw [congrFun (count_call hp (fun _ => 0) q).1 q]
    exact hs i _ hpoint rfl
  | wait i =>
    intro j p hpoint hwaits
    obtain ⟨-, rfl⟩ := Prod.mk.inj (Option.some.inj hpoint)
    cases hwaits
  | runLast => exact hs

/-! ## Somebody can go on -/

/-- A runner loop of the queue is executing a task, or can make a step that is not another failed
attempt to take the spin lock. -/
def Teardown.RunnerMoves (q : Q) (s : Teardown Q α) : Prop :=
  ∃ (j : ℕ) (th : Thread Q (Option α)) (pt : Point (Option α)),
    s.program.threads[j]? = some th ∧ th.job = some (q, pt) ∧
      ((∃ g t, pt = .execute g t) ∨ ∃ s', Teardown.step q s (.program (.advance j)) = some s' ∧
        s'.program.threads[j]? ≠ some th)

/-- The destructor is in `g.wait()` and cannot return, and nobody can go on for it. -/
def Teardown.Stuck (q : Q) (s : Teardown Q α) : Prop :=
  ∃ i, s.destructor = some (i, .wait) ∧ (s.program.threads[i]?).bind Thread.call = none ∧
    Teardown.step q s .advance = none ∧ Teardown.step q s .runLast = none ∧ ¬ s.RunnerMoves q

/-- A runner can move unless it spins. -/
lemma runnerMoves_of_job {j : ℕ} {th : Thread Q (Option α)} {pt : Point (Option α)}
    (hapart : s.program.Apart) (hj : s.program.threads[j]? = some th) (hjob : th.job = some (q, pt))
    (hspins : pt.spins (s.program.queue q) = false) : s.RunnerMoves q := by
  refine ⟨j, th, pt, hj, hjob, ?_⟩
  by_cases hexecute : ∃ g t, pt = .execute g t
  · exact .inl hexecute
  · have hin := hapart.jobs th (List.mem_of_getElem? hj) q pt hjob
    have hresume : pt = .resume → (s.program.queue q).pauseCount ≠ 0 := by
      rintro rfl
      cases hin
    obtain ⟨p, hp, hne⟩ :=
      exists_advance hj (next?_of_job hapart hj hjob hexecute) hresume hexecute hspins
    refine .inr ⟨{ s with program := p }, ?_, hne⟩
    simp [Teardown.step, Teardown.permits, Label.outside, hp, Teardown.lastAfter]

/-- Whoever is at the queue, somebody can go on: if it is not the one who is there, then the one who
has the lock. -/
lemma runnerMoves_of_mem (hreach : Reachable s.program)
    (hnocall : ∀ pt ∈ s.program.points q, pt.inCall = false) {pt : Point (Option α)}
    (hmem : pt ∈ s.program.points q) : s.RunnerMoves q := by
  have hapart := apart hreach
  have hjob : ∀ {j : ℕ} {th : Thread Q (Option α)} {n : Point (Option α)},
      s.program.threads[j]? = some th → th.job = some (q, n) ∨ th.call = some (q, n) →
      th.job = some (q, n) := by
    intro j th n hj hat
    have hmem := List.mem_of_getElem? hj
    refine hat.resolve_right fun hcall => ?_
    cases (hnocall n (mem_points hmem (.inr hcall))).symm.trans (hapart.calls th hmem q n hcall)
  cases hspins : pt.spins (s.program.queue q) with
  | false =>
    obtain ⟨j, th, hj, hat⟩ := mem_points_iff.mp hmem
    exact runnerMoves_of_job hapart hj (hjob hj hat) hspins
  | true =>
    have hlock : (s.program.queue q).pickingNextTask = true := by
      unfold Point.spins at hspins
      split at hspins
      · exact hspins
      · cases hspins
    obtain ⟨j, th, c, p, hj, hnext, hone⟩ := exists_locking hreach hlock
    refine runnerMoves_of_job hapart hj (hjob hj (Thread.next?_eq hnext)) ?_
    cases p with
    | lockPicking => cases hone
    | _ => rfl

/-! ## Runs -/

/-- **The destructor does not get stuck.** In every run in which the queue is not paused whenever the
destructor finds a chosen task, no state is reached in which it waits for good. -/
theorem destructor_not_stuck
    (h : RunsTo (Teardown.step q) (fun s a => waitsUnpaused q s a = true) {} s) : ¬ s.Stuck q := by
  rintro ⟨i, hpoint, hcall, hadvance, hrun, hnobody⟩
  have hsound := sound h
  have hreach := Teardown.reachable h
  have hknown : ∀ {t : Teardown Q α},
      RunsTo (Teardown.step q) (fun s a => waitsUnpaused q s a = true) {} t →
      t.Sound q ∧ Reachable t.program := fun ht => ⟨sound ht, Teardown.reachable ht⟩
  have hunpaused : s.Unpaused q :=
    h.invariant_of hknown nofun fun s a s' hk hs hok hstep => unpaused_step hk.1 hk.2 hs hok hstep
  have hzero := hunpaused i _ hpoint rfl
  have hnocall : ∀ pt ∈ s.program.points q, pt.inCall = false := by
    intro pt hmem
    by_contra hin
    obtain ⟨-, -, th, hth, hcall'⟩ :=
      hsound.ofDestructor (apart hreach) hmem (by simpa using hin) hpoint
    rw [hth] at hcall
    cases hcall.symm.trans hcall'
  have hnone : ∀ pt, pt ∉ s.program.points q := fun pt hmem =>
    hnobody (runnerMoves_of_mem hreach hnocall hmem)
  cases hlast : s.last with
  | unmade => exact hsound.made i hpoint hlast
  | running => simp [Teardown.step, hlast] at hrun
  | done =>
    have hgroup : ∀ pt ∈ s.program.points q, pt.group ≠ some 0 := fun pt hmem =>
      absurd hmem (hnone pt)
    simp only [Teardown.step, Teardown.advance, hpoint] at hadvance
    rw [if_pos ⟨hcall, hlast, hgroup⟩] at hadvance
    cases hadvance
  | deferred =>
    -- the task of the destructor is still in `m_tasks`, and nobody is going to take it
    have hheld := hsound.held
    unfold State.held at hheld
    rw [hlast, if_pos rfl, count_eq_zero_of_idle hnone, Nat.zero_add,
      tasks_eq_nil_of_idle hreach hnone hzero] at hheld
    cases hheld

theorem destructor_not_stuck_destroyRunning :
    ∃ s : Teardown Unit ℕ, execute (Teardown.step ()) (waitsUnpaused ()) {} destroyRunning = some s ∧
      s.destructor = some (0, .wait) ∧ ¬ s.Stuck () := by
  have hrun : ∃ s : Teardown Unit ℕ,
      execute (Teardown.step ()) (waitsUnpaused ()) {} destroyRunning = some s ∧
      s.destructor = some (0, .wait) := ⟨_, rfl, by decide⟩
  obtain ⟨s, hs, hwait⟩ := hrun
  exact ⟨s, hs, hwait, destructor_not_stuck (.of_execute destroyRunning (fun _ _ h => h) hs)⟩

/-- A task is running and the queue is paused when thread 0 destroys it. -/
def destroyPaused : List (TeardownLabel Unit ℕ) :=
  runTask ++ [.program (.call 0 () .pause)] ++ operations 0 1 ++
    [.destroy 0, .advance, .advance, .advance] ++ operations 0 2 ++ [.program (.finish 1 false)] ++
    operations 1 2

/-- **The destructor of a paused queue can get stuck.** -/
theorem destructor_stuck :
    ¬ ∀ s : Teardown Unit ℕ, Reaches (Teardown.step ()) {} s → ¬ s.Stuck () := by
  have hrun : ∃ s : Teardown Unit ℕ, executeAll (Teardown.step ()) {} destroyPaused = some s ∧
      s.destructor = some (0, .wait) ∧ (s.program.threads[0]?).bind Thread.call = none ∧
      s.last = .deferred ∧ s.program.threads.all (·.job.isNone) = true := by
    refine ⟨_, rfl, ?_, ?_, ?_, ?_⟩ <;> decide
  obtain ⟨s, hs, hpoint, hcall, hlast, hjobs⟩ := hrun
  intro hall
  refine hall s (.of_executeAll _ hs) ⟨0, hpoint, hcall, ?_, ?_, ?_⟩
  · simp [Teardown.step, Teardown.advance, hpoint, hlast]
  · simp [Teardown.step, hlast]
  · rintro ⟨j, th, pt, hj, hjob, -⟩
    have hnone := List.all_eq_true.mp hjobs th (List.mem_of_getElem? hj)
    rw [hjob] at hnone
    cases hnone

end UnifyPrototype.SerialTaskQueue
