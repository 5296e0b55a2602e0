import UnifyPrototype.SerialTaskQueue.Order

/-!
# How long a pause holds

The documentation of `pause()` says that no further task is started once the running one has
finished. `pickNextTask` reads `m_pauseCount` before it takes the lock and the chosen flag, so a
thread that was between the two when the pause came can still pick a task. Without such a thread
the pause holds.
-/

namespace UnifyPrototype.SerialTaskQueue

open UnifyPrototype.Utils

variable {Q α : Type} [DecidableEq Q] {s s' : State Q α} {q : Q}

/-! ## Runs without an out-of-date read -/

/-- The step does not act on an out-of-date read of `m_pauseCount`: if it is the compare-exchange
on `m_taskChosen` in `pickNextTask` and finds the flag clear, the queue is still not paused. -/
def freshPick (s : State Q α) : Label Q α → Bool
  | .advance i =>
    match (s.threads[i]?).bind Thread.next? with
    | some (q, .pick _ .chooseTask) => (s.queue q).taskChosen || (s.queue q).pauseCount == 0
    | _ => true
  | _ => true

/-- Every step of the run makes fresh picks. -/
abbrev Fresh (s : State Q α) (a : Label Q α) : Prop :=
  freshPick s a = true

omit [DecidableEq Q] in
/-- Who sets `m_taskChosen` on a read that is not out of date finds the queue not paused. -/
lemma pauseCount_of_fresh {i : ℕ} {th : Thread Q α} {c : Caller}
    (h : Fresh s (.advance i)) (hth : s.threads[i]? = some th)
    (hnext : th.next? = some (q, .pick c .chooseTask)) (hclear : (s.queue q).taskChosen = false) :
    (s.queue q).pauseCount = 0 := by
  simpa [Fresh, freshPick, hth, hnext, hclear] using h

/-! ## A finished task leaves nobody who may start another one -/

/-- Set the chosen flag and may still pop a task, or has one that has not begun. -/
def Point.mayStart : Point α → ℕ
  | .pick _ .tryPop | .pick _ (.unlockPicking (some _)) | .spawn _ _ | .waiting _ | .loop _ _ => 1
  | _ => 0

/-- Owns the flag and starts no task. -/
def Point.startsNone (pt : Point α) : ℕ :=
  pt.owns - pt.mayStart

/-- An owner may start a task, or it starts none. -/
lemma startsNone_add_mayStart (pt : Point α) : pt.startsNone + pt.mayStart ≤ pt.owns := by
  rcases pt with _ | _ | _ | ⟨c, _ | _ | _ | _ | _ | _ | t⟩ | _ | _ | _ | _ | _ <;>
    simp [Point.startsNone, Point.owns, Pick.owns, Point.mayStart]

/-- The runner of a task that has just finished is the only owner of the flag. -/
lemma mayStart_eq_zero_of_finish (h : Reachable s) {i g : ℕ} {t : QueuedTask α} {threw : Bool}
    (hth : s.threads[i]? = some ⟨some (q, .execute g t), none⟩)
    (hstep : step s (.finish i threw) = some s') : s'.count Point.mayStart q = 0 := by
  have hmem : .execute g t ∈ s.points q := mem_points (List.mem_of_getElem? hth) (.inl rfl)
  have hzero : s.count Point.mayStart q = 0 :=
    count_eq_zero startsNone_add_mayStart (owns_le_one h q) (.execute g t) rfl hmem
  cases step_at q hstep with
  | elsewhere hq hc => rw [hc, hzero]
  | entered op hq _ hc =>
    rw [hc, hzero]
    cases op <;> rfl
  | moved j th pt r hlabel => cases hlabel
  | finished j threw' g' t' _ _ _ hq hc =>
    have := hc Point.mayStart
    simp only [Point.mayStart] at this
    omega

/-- Only the compare-exchange that sets the flag makes a thread one that may start a task. -/
lemma mayStart_step {m : Queue α} {pt : Point α} {r : Result α} (h : pt.step m = some r)
    (hchoose : ∀ c, pt = .pick c .chooseTask → m.taskChosen = true) :
    r.weight Point.mayStart ≤ pt.mayStart := by
  cases operation h with
  | choose c hclear =>
    rw [hchoose c rfl] at hclear
    cases hclear
  | _ => simp [Result.weight, Point.mayStart]

/-- Nobody may start a task of `q`, and the records of `q` are `popped` and `begun`. -/
def State.Still (s : State Q α) (q : Q) (popped begun : List (QueuedTask α)) : Prop :=
  s.count Point.mayStart q = 0 ∧ (s.queue q).popped = popped ∧ (s.queue q).begun = begun

/-- While the queue is paused, a run without out-of-date reads starts nothing. -/
lemma still_step {popped begun : List (QueuedTask α)} {a : Label Q α}
    (h : s.Still q popped begun) (hfresh : Fresh s a) (hpause : (s.queue q).pauseCount ≠ 0)
    (hstep : step s a = some s') : s'.Still q popped begun := by
  obtain ⟨hzero, hpopped, hbegun⟩ := h
  cases step_at q hstep with
  | elsewhere hq hc => exact ⟨by rw [hc, hzero], by rw [hq, hpopped], by rw [hq, hbegun]⟩
  | entered op hq _ hc =>
    refine ⟨?_, by rw [hq, hpopped], by rw [hq, hbegun]⟩
    rw [hc, hzero]
    cases op <;> rfl
  | finished i threw g t _ _ _ hq hc =>
    refine ⟨?_, by rw [hq, hpopped], by rw [hq, hbegun]⟩
    have := hc Point.mayStart
    simp only [Point.mayStart] at this
    omega
  | moved i th pt r hlabel hth hnext hmem hr hq hc =>
    subst hlabel
    have hpt : pt.mayStart = 0 := tally_eq_zero.mp hzero pt hmem
    have hchoose : ∀ c, pt = .pick c .chooseTask → (s.queue q).taskChosen = true := by
      rintro c rfl
      by_contra hclear
      exact hpause (pauseCount_of_fresh hfresh hth hnext (by simpa using hclear))
    have hweight := mayStart_step hr hchoose
    have hcount := hc Point.mayStart
    refine ⟨by omega, ?_⟩
    rw [hq]
    cases log_step hr with
    | same hp hb => exact ⟨hp.trans hpopped, hb.trans hbegun⟩
    | pop c t hpt' => subst hpt'; cases hpt
    | start g t hpt' => subst hpt'; cases hpt

/-! ## The pause of a running task -/

/-- In a run of the kind `ok`, a task `t` running on `q` has paused `q`, and in the state `s` it has
just finished. -/
structure FinishedPausing (ok : State Q α → Label Q α → Prop) (q : Q) (s : State Q α) where
  (before after last : State Q α) (i g : ℕ) (t : QueuedTask α) (threw : Bool)
  run_before : RunsTo step ok {} before
  inside_pause : before.threads[i]? = some ⟨some (q, .execute g t), some (q, .pause)⟩
  paused : ok before (.advance i) ∧ step before (.advance i) = some after
  run_after : RunsTo step ok after last
  still_running : last.threads[i]? = some ⟨some (q, .execute g t), none⟩
  finished : step last (.finish i threw) = some s

/-- The state in which the pausing task finishes is reached by the queue's steps. -/
lemma FinishedPausing.reachable {ok : State Q α → Label Q α → Prop}
    (h : FinishedPausing ok q s) : Reachable h.last :=
  (h.run_before.reaches.tail trivial h.paused.2).trans h.run_after.reaches

/-- **A pause holds in a run without out-of-date reads.** If a task running on `q` pauses `q`, then
from the moment it finishes until `m_pauseCount` is next `0` no task of `q` is picked or begins, in
every run in which `m_pauseCount` is still `0` whenever a thread sets `m_taskChosen`. -/
theorem pause_holds (h : FinishedPausing Fresh q s)
    (hrun : RunsTo step (fun s a => Fresh s a ∧ (s.queue q).pauseCount ≠ 0) s s') :
    (s'.queue q).popped = (s.queue q).popped ∧ (s'.queue q).begun = (s.queue q).begun := by
  have hstill : s'.Still q (s.queue q).popped (s.queue q).begun :=
    hrun.invariant
      ⟨mayStart_eq_zero_of_finish h.reachable h.still_running h.finished, rfl, rfl⟩
      fun t a t' ih hok hstep => still_step ih hok.1 hok.2 hstep
  exact hstill.2

/-! ## One run in which it holds, and one in which it does not -/

/-- A task is pushed, picked and begins to execute. -/
def pushAndBegin : List (Label Unit ℕ) :=
  [.fork, .call 0 () (.push 0 7)] ++ List.replicate 7 (.advance 0) ++ [.advance 1, .advance 1]

/-- Then a second thread pushes another task, reads that the queue is not paused, and is delayed. -/
def delayedPush : List (Label Unit ℕ) :=
  [.fork, .call 2 () (.push 0 8), .advance 2, .advance 2]

/-- The first task finishes and its runner ends because the queue is paused. -/
def runnerEnds : List (Label Unit ℕ) :=
  [.advance 1, .advance 1]

/-- The delayed thread goes on: it picks the second task, whose functor begins to execute it. -/
def delayedPick : List (Label Unit ℕ) :=
  List.replicate 5 (.advance 2) ++ List.replicate 2 (.advance 3)

theorem pause_holds_pushAndBegin :
    ∃ s s' : State Unit ℕ, Nonempty (FinishedPausing Fresh () s) ∧
      executeAll step s runnerEnds = some s' ∧ (s'.queue ()).popped = (s.queue ()).popped := by
  have hrun : ∃ before after s s' : State Unit ℕ,
      execute step freshPick {} (pushAndBegin ++ [.call 1 () .pause]) = some before ∧
      before.threads[1]? = some ⟨some ((), .execute 0 ⟨0, 0, 7⟩), some ((), .pause)⟩ ∧
      step before (.advance 1) = some after ∧
      after.threads[1]? = some ⟨some ((), .execute 0 ⟨0, 0, 7⟩), none⟩ ∧
      step after (.finish 1 false) = some s ∧
      execute step (fun s a => freshPick s a && (s.queue ()).pauseCount != 0) s runnerEnds
        = some s' ∧ executeAll step s runnerEnds = some s' :=
    ⟨_, _, _, _, rfl, rfl, rfl, rfl, rfl, rfl, rfl⟩
  obtain ⟨before, after, s, s', hbefore, hin, hpaused, hstill, hfinish, hrun, hexec⟩ := hrun
  have hfinished : FinishedPausing Fresh () s :=
    ⟨before, after, after, 1, 0, _, false, .of_execute _ (fun _ _ h => h) hbefore, hin,
      ⟨by simp [Fresh, freshPick, hin, Thread.next?], hpaused⟩, .refl, hstill, hfinish⟩
  refine ⟨s, s', ⟨hfinished⟩, hexec, (pause_holds hfinished ?_).1⟩
  exact .of_execute _ (fun _ _ h => by simpa using h) hrun

/-- **A pause need not hold.** Thread 2 has read that the queue is not paused when the running task
pauses it; it picks and starts the next task after the running one has finished. -/
theorem pause_does_not_hold :
    ¬ ∀ s s' : State Unit ℕ, FinishedPausing (fun _ _ => True) () s →
      RunsTo step (fun s _ => (s.queue ()).pauseCount ≠ 0) s s' →
      (s'.queue ()).popped = (s.queue ()).popped ∧ (s'.queue ()).begun = (s.queue ()).begun := by
  have hrun : ∃ before after s s' : State Unit ℕ,
      executeAll step {} (pushAndBegin ++ delayedPush ++ [.call 1 () .pause]) = some before ∧
      before.threads[1]? = some ⟨some ((), .execute 0 ⟨0, 0, 7⟩), some ((), .pause)⟩ ∧
      step before (.advance 1) = some after ∧
      after.threads[1]? = some ⟨some ((), .execute 0 ⟨0, 0, 7⟩), none⟩ ∧
      step after (.finish 1 false) = some s ∧
      execute step (fun s _ => (s.queue ()).pauseCount != 0) s (runnerEnds ++ delayedPick)
        = some s' ∧ (s'.queue ()).begun.length = 2 ∧ (s.queue ()).begun.length = 1 :=
    ⟨_, _, _, _, rfl, rfl, rfl, rfl, rfl, rfl, rfl, rfl⟩
  obtain ⟨before, after, s, s', hbefore, hin, hpaused, hstill, hfinish, hrun, hlen', hlen⟩ := hrun
  intro hall
  have hsame := (hall s s'
    ⟨before, after, after, 1, 0, _, false, .of_executeAll _ hbefore, hin, ⟨trivial, hpaused⟩,
      .refl, hstill, hfinish⟩
    (.of_execute _ (fun _ _ h => by simpa using h) hrun)).2
  rw [hsame] at hlen'
  omega

end UnifyPrototype.SerialTaskQueue
