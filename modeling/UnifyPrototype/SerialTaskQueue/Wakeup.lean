import UnifyPrototype.SerialTaskQueue.Ownership

/-!
# No lost wake-up

A thread that finds the queue paused, the flag set or `m_tasks` empty leaves the queued tasks to
somebody else. The invariant here says that there is somebody else: as long as a queue that is not
paused has tasks and nobody owns the chosen flag for good, some thread is on its way to the
compare-exchange on `m_taskChosen`.
-/

namespace UnifyPrototype.SerialTaskQueue

open UnifyPrototype.Utils

variable {Q α : Type} [DecidableEq Q] {s s' : State Q α} {q : Q}

/-! ## The weights -/

/-- In `pickNextTask`, with the compare-exchange on `m_taskChosen` still to come. -/
def Point.willChoose : Point α → ℕ
  | .pick _ .readPauseCount | .pick _ .lockPicking | .pick _ .chooseTask => 1
  | _ => 0

/-- Found `m_tasks` empty and is about to clear the flag it set. -/
def Point.clears : Point α → ℕ
  | .pick _ .clearChosen => 1
  | _ => 0

/-- Holds the lock without being about to clear the flag. -/
def Point.locksOnly (pt : Point α) : ℕ :=
  pt.locks - pt.clears

lemma locksOnly_add_clears (pt : Point α) : pt.locksOnly + pt.clears ≤ pt.locks := by
  rcases pt with _ | _ | _ | ⟨c, _ | _ | _ | _ | _ | r⟩ | _ | _ | _ | _ | _ <;>
    simp [Point.locksOnly, Point.clears, Point.locks, Pick.locks]

/-- The lock serialises a thread at another locked operation with one that is about to clear. -/
lemma clears_eq_zero (h : Reachable s) (pt : Point α) (hpt : pt.locksOnly = 1)
    (hmem : pt ∈ s.points q) : s.count Point.clears q = 0 :=
  count_eq_zero locksOnly_add_clears (locks_le_one h q) pt hpt hmem

/-! ## The invariant -/

/-- Queue `q` is served: it has no tasks, or it is paused, or somebody owns the chosen flag and
is not about to clear it, or somebody will try to set it. -/
def State.Served (s : State Q α) (q : Q) : Prop :=
  (s.queue q).tasks = [] ∨ (s.queue q).pauseCount ≠ 0 ∨
    ((s.queue q).taskChosen = true ∧ s.count Point.clears q = 0) ∨
    0 < s.count Point.willChoose q

/-- One operation keeps the queue served. -/
lemma served_moved {pt : Point α} {r : Result α} (hs : Reachable s) (ih : s.Served q)
    (hmem : pt ∈ s.points q) (hr : pt.step (s.queue q) = some r) (hq : s'.queue q = r.queue)
    (hc : ∀ w, s'.count w q + w pt = s.count w q + r.weight w) : s'.Served q := by
  have hwill := hc Point.willChoose
  have hclear := hc Point.clears
  have hleWill := le_count Point.willChoose hmem
  have hleClear := le_count Point.clears hmem
  have hop := operation hr
  unfold State.Served at ih ⊢
  rw [hq]
  cases hop with
  | push t | finishedTask g | resumeLast =>
    -- the thread goes on to `pickNextTask` itself
    simp only [Result.weight, Option.elim_some, Option.elim_none, Point.willChoose] at hwill
    exact .inr (.inr (.inr (by omega)))
  | pause | resume => exact .inr (.inl (by simp))
  | paused c hcount =>
    -- the reader gives up, but only because the queue is paused
    exact .inr (.inl hcount)
  | notPaused c _ | spin c _ | lock c _ =>
    simp only [Result.weight, Option.elim_some, Option.elim_none, Point.willChoose]
      at hwill hleWill
    exact .inr (.inr (.inr (by omega)))
  | alreadyChosen c hchosen =>
    -- the exchange fails: the flag is set and its owner is not about to clear it
    have hzero := clears_eq_zero hs (.pick c .chooseTask) rfl hmem
    simp only [Result.weight, Option.elim_some, Option.elim_none, Point.clears] at hclear
    exact .inr (.inr (.inl ⟨hchosen, by omega⟩))
  | choose c _ =>
    have hzero := clears_eq_zero hs (.pick c .chooseTask) rfl hmem
    simp only [Result.weight, Option.elim_some, Option.elim_none, Point.clears] at hclear
    exact .inr (.inr (.inl ⟨rfl, by omega⟩))
  | pop c htasks =>
    have hzero := clears_eq_zero hs (.pick c .tryPop) rfl hmem
    have hown : (s.queue q).taskChosen = true := taskChosen_of_owns hs rfl hmem
    simp only [Result.weight, Option.elim_some, Option.elim_none, Point.clears] at hclear
    exact .inr (.inr (.inl ⟨hown, by omega⟩))
  | empty c htasks => exact .inl htasks
  | clear c =>
    -- the flag is cleared: whoever pushed since the failed pop still has its exchange to come
    simp only [Point.clears] at hleClear
    simp only [Result.weight, Option.elim_some, Option.elim_none, Point.willChoose,
      Nat.add_zero] at hwill
    rw [hwill]
    rcases ih with ih | ih | ih | ih
    · exact .inl ih
    · exact .inr (.inl ih)
    · omega
    · exact .inr (.inr (.inr ih))
  | _ =>
    simp only [Result.weight, Option.elim_some, Option.elim_none, Point.willChoose, Point.clears,
      Nat.add_zero] at hwill hclear
    rw [hwill, hclear]
    exact ih

/-- Every queue is served in every reachable state. -/
theorem served (h : Reachable s) (q : Q) : s.Served q := by
  refine h.invariant_of (J := Reachable) (I := fun s => s.Served q) id (.inl rfl)
    fun s a s' hs ih _ hstep => ?_
  cases step_at q hstep with
  | elsewhere hq hc => simpa [State.Served, hq, hc] using ih
  | entered op hq _ hc =>
    have hwill := hc Point.willChoose
    have hclear := hc Point.clears
    have hentry : (op.entry s.nextId).willChoose = 0 ∧ (op.entry s.nextId).clears = 0 := by
      cases op <;> exact ⟨rfl, rfl⟩
    simpa [State.Served, hq, hwill, hclear, hentry] using ih
  | finished i threw g t _ _ _ hq hc =>
    have hwill := hc Point.willChoose
    have hclear := hc Point.clears
    simp only [Point.willChoose, Point.clears, Nat.add_zero] at hwill hclear
    simpa [State.Served, hq, hwill, hclear] using ih
  | moved i th pt r _ _ _ hmem hr hq hc => exact served_moved hs ih hmem hr hq hc

/-! ## Quiet states -/

/-- The operation is one of `push`, `resume`, `finishedTask` or `pickNextTask`. -/
def Point.inMember : Point α → Bool
  | .push _ | .resume | .pick _ _ | .spawn .member _ | .finishedTask _ => true
  | .pause | .spawn (.runner _) _ | .waiting _ | .loop _ _ | .execute _ _ => false

/-- No thread is inside `push`, `resume`, `finishedTask` or `pickNextTask` of queue `q`. -/
def State.Quiet (s : State Q α) (q : Q) : Prop :=
  ∀ pt ∈ s.points q, pt.inMember = false

instance (s : State Q α) (q : Q) : Decidable (s.Quiet q) :=
  inferInstanceAs (Decidable (∀ pt ∈ s.points q, pt.inMember = false))

/-- The task that was picked and has not finished, if the operation is about one. -/
def Point.unfinished : Point α → List (QueuedTask α)
  | .pick _ (.unlockPicking (some t)) | .spawn _ t | .waiting t | .loop _ t | .execute _ t => [t]
  | _ => []

/-- The tasks of queue `q` that were picked and have not finished. -/
def State.unfinished (s : State Q α) (q : Q) : List (QueuedTask α) :=
  (s.points q).flatMap Point.unfinished

/-- When nobody is inside the queue's member functions, every picked task is waiting or running,
and there is one exactly when the chosen flag is set. -/
lemma length_unfinished_of_quiet (h : Reachable s) (hquiet : s.Quiet q) :
    (s.unfinished q).length = (s.queue q).taskChosen.toNat := by
  rw [State.unfinished, length_flatMap_eq_tally, ← owns_eq h q]
  refine tally_congr fun pt hpt => ?_
  have hin := hquiet pt hpt
  rcases pt with _ | _ | _ | ⟨c, p⟩ | ⟨_ | g, t⟩ | _ | _ | _ | _ <;>
    first | rfl | cases hin

/-- **A task is never stranded.** If nobody is inside the queue's member functions and it is not
paused, then either no task is chosen and `m_tasks` is empty, or the tasks in `m_tasks` have
exactly one picked task before them, which is waiting to run or running. -/
theorem no_task_stranded (h : Reachable s) (hquiet : s.Quiet q)
    (hpause : (s.queue q).pauseCount = 0) :
    ((s.queue q).taskChosen = false → (s.queue q).tasks = []) ∧
      ((s.queue q).tasks ≠ [] → ∃ t, s.unfinished q = [t]) := by
  have hwill : s.count Point.willChoose q = 0 := tally_eq_zero.mpr fun pt hpt => by
    have hin := hquiet pt hpt
    rcases pt with _ | _ | _ | ⟨c, p⟩ | _ | _ | _ | _ | _ <;> first | rfl | cases hin
  have hserved : (s.queue q).tasks = [] ∨ (s.queue q).taskChosen = true := by
    rcases served h q with hs | hs | hs | hs
    · exact .inl hs
    · exact absurd hpause hs
    · exact .inr hs.1
    · omega
  constructor
  · intro hchosen
    exact hserved.resolve_right (by simp [hchosen])
  · intro htasks
    have hlen := length_unfinished_of_quiet h hquiet
    rw [hserved.resolve_left htasks] at hlen
    exact List.length_eq_one_iff.mp hlen

/-- One thread pushes two tasks; the functor of the first has not started yet. -/
def pushTwice : List (Label Unit ℕ) :=
  [.fork, .call 0 () (.push 0 7)] ++ List.replicate 7 (.advance 0) ++
    [.call 0 () (.push 0 8)] ++ List.replicate 5 (.advance 0)

/-- A task waits behind another one that has not finished. -/
theorem no_task_stranded_pushTwice :
    ∃ s : State Unit ℕ, Reachable s ∧ (s.queue ()).tasks ≠ [] ∧ ∃ t, s.unfinished () = [t] := by
  have hrun : ∃ s, executeAll step {} pushTwice = some s ∧ s.Quiet () ∧
      (s.queue ()).pauseCount = 0 ∧ (s.queue ()).tasks ≠ [] :=
    ⟨_, rfl, by decide, rfl, by decide⟩
  obtain ⟨s, hs, hquiet, hpause, htasks⟩ := hrun
  have hreach : Reachable s := .of_executeAll _ hs
  exact ⟨s, hreach, htasks, (no_task_stranded hreach hquiet hpause).2 htasks⟩

end UnifyPrototype.SerialTaskQueue
