import UnifyPrototype.LimitedTaskQueue.Order

/-!
# The limit, and no action left behind

An action executes in the lambda of some queue, and a queue executes one lambda at a time. A state
where nobody goes on has no lambda and no call left, so what was pushed onto a queue that is not paused
has begun there, and is decided.
-/

namespace UnifyPrototype.LimitedTaskQueue

open UnifyPrototype.Utils
open SerialTaskQueue (QueuedTask Point Thread Result)

variable {k : ℕ} {s s' : State k} {a : Label}

/-! ## The limit -/

/-- Inside the action of a task. -/
def executes (pt : Point (Closure k)) : ℕ :=
  pt.executing.length

/-- A queue executes one task at a time. -/
lemma count_executes_le_one (h : Reachable s) (q : Fin k) : s.base.count executes q ≤ 1 :=
  (SerialTaskQueue.count_mono (fun pt => (SerialTaskQueue.length_executing_le pt).trans
    (SerialTaskQueue.length_unfinished_le pt)) s.base q).trans
    (SerialTaskQueue.owns_le_one (reachable_base h) q)

lemma length_executing_frame (f : Frame k) : f.executing.length ≤ 1 := by
  unfold Frame.executing
  split <;> simp

/-- **The limit is respected.** At most `k` actions are executing. -/
theorem length_executing_le (h : Reachable s) : s.executing.length ≤ k := by
  have hthread : ∀ i th, s.base.threads[i]? = some th → (s.frame i).executing.length
      ≤ tally (fun q => th.weight executes q) (List.finRange k) := by
    intro i th hth
    cases hbody : (s.frame i).body with
    | none => simp [Frame.executing, hbody]
    | some x =>
      obtain ⟨th', q, g, t, hth', hjob, -⟩ := (fits h).body i x hbody
      obtain rfl := Option.some.inj (hth.symm.trans hth')
      have hone : 1 ≤ th.weight executes q := by
        simp [Thread.weight, hjob, executes, SerialTaskQueue.Point.executing]
      have hle := le_tally_of_mem (fun q => th.weight executes q) (List.mem_finRange q)
      have := length_executing_frame (s.frame i)
      omega
  calc s.executing.length
      = tally (fun i => (s.frame i).executing.length) (List.range s.base.threads.length) :=
        length_executing s
    _ ≤ tally (fun th => tally (fun q => th.weight executes q) (List.finRange k)) s.base.threads :=
        tally_range_le hthread
    _ = tally (fun q => tally (fun th => th.weight executes q) s.base.threads) (List.finRange k) :=
        tally_comm _ _ _
    _ = tally (fun q => s.base.count executes q) (List.finRange k) :=
        tally_congr fun q _ => (SerialTaskQueue.count_eq_tally s.base executes q).symm
    _ ≤ (List.finRange k).length := tally_le_length fun q _ => count_executes_le_one h q
    _ = k := List.length_finRange

/-! ## The pauses -/

/-- A `Resumer` is made when the queue is paused. -/
lemma count_constructed (q q' : Fin k) (pt : Point (Closure k)) :
    (constructed q' pt).count (some q) = if q' = q then pt.isPause else 0 := by
  cases pt with
  | pause => simp [constructed, SerialTaskQueue.Point.isPause, List.count_singleton]
  | _ => simp [constructed, SerialTaskQueue.Point.isPause]

/-- Every step changes the pauses of a queue by as much as the `Resumer`s of it and the threads that
release one. -/
lemma balance_step (hstep : step s a = some s') (q : Fin k) :
    (s'.base.queue q).pauseCount + s.resumers.count (some q) + s.base.count Point.resumes q
      = (s.base.queue q).pauseCount + s'.resumers.count (some q) + s'.base.count Point.resumes q := by
  have hother : ∀ {l b}, SerialTaskQueue.step s.base l = some b → (∀ i, l ≠ .advance i) →
      (∀ i q, l ≠ .call i q .resume) →
      (b.queue q).pauseCount + s.resumers.count (some q) + s.base.count Point.resumes q
        = (s.base.queue q).pauseCount + s.resumers.count (some q) + b.count Point.resumes q := by
    intro l b hb hadvance hcall
    rw [SerialTaskQueue.pauseCount_eq hb hadvance, SerialTaskQueue.count_resumes_eq hb hadvance hcall]
  cases steps hstep with
  | fork hb | copy _ hb | pushes _ _ hb | pauses _ hb | finish _ hb => exact hother hb nofun nofun
  | enter | returns | fails | claims | actionEnds => rfl
  | resumers _ _ hcount => rw [hcount]
  | @release i r q' b hr hb =>
    obtain ⟨hlt, hget⟩ := List.getElem?_eq_some_iff.mp hr
    have hset := List.count_set (a := none) (b := some q) hlt
    obtain ⟨hqueue, hcount⟩ := SerialTaskQueue.count_call hb Point.resumes q
    rw [hqueue, hcount, hset, hget]
    by_cases hq : q' = q
    · subst hq
      have hpos : 0 < s.resumers.count (some q') :=
        List.count_pos_iff.mpr (hget ▸ List.getElem_mem hlt)
      simp [SerialTaskQueue.Op.entry, SerialTaskQueue.Point.resumes]
      omega
    · simp [hq]
  | @advance i th q' pt b hth hnext hb =>
    have hmove := SerialTaskQueue.pauseCount_advance hth hnext hb q
    show (b.queue q).pauseCount + _ + _
      = _ + (s.resumers ++ constructed q' pt).count (some q) + b.count Point.resumes q
    rw [List.count_append, count_constructed]
    omega

/-- **A queue is paused as often as there are `Resumer`s of it**, and threads that release one. -/
theorem pauseCount_eq (h : Reachable s) (q : Fin k) : (s.base.queue q).pauseCount
    = s.resumers.count (some q) + s.base.count Point.resumes q := by
  refine h.invariant (I := fun s => (s.base.queue q).pauseCount
    = s.resumers.count (some q) + s.base.count Point.resumes q) rfl fun s a s' ih _ hstep => ?_
  have hbalance := balance_step hstep q
  omega

/-- Nobody resumes a queue that is not paused. -/
lemma pauseCount_ne_zero (h : Reachable s) (q : Fin k) (hmem : .resume ∈ s.base.points q) :
    (s.base.queue q).pauseCount ≠ 0 := by
  have hle : (1 : ℕ) ≤ s.base.count Point.resumes q := SerialTaskQueue.le_count Point.resumes hmem
  rw [pauseCount_eq h q]
  omega

/-! ## Where nobody goes on -/

/-- If nothing can be done, the queues are at rest. -/
lemma resting_of_stuck (hstuck : s.Stuck) : s.base.Resting := by
  intro i th b hth hb
  obtain ⟨th', q, pt, r, hth', hnext, -, -⟩ := SerialTaskQueue.step_advance hb
  have hbind : (s.base.threads[i]?).bind Thread.next? = some (q, pt) := by
    rw [hth']
    exact hnext
  have hstep : step s (.advance i) = some { s with
      base := b
      frame := Function.update s.frame i ((s.frame i).after pt)
      resumers := s.resumers ++ constructed q pt } := by
    simp [step, hbind, hb]
  have hbase : b = s.base := congrArg State.base (hstuck _ _ rfl hstep)
  rw [hbase]
  exact hth

/-- Every thread is idle or inside the action of a task. -/
lemma next?_of_stuck (h : Reachable s) (hstuck : s.Stuck) {i : ℕ} {th : Thread (Fin k) (Closure k)}
    (hth : s.base.threads[i]? = some th) :
    th.call = none ∧ ∀ q pt, th.job = some (q, pt) → ∃ g t, pt = .execute g t := by
  have hexecute : ∀ q pt, th.next? = some (q, pt) → ∃ g t, pt = .execute g t := fun q pt hnext =>
    SerialTaskQueue.eq_execute_of_resting (reachable_base h) (resting_of_stuck hstuck)
      (pauseCount_ne_zero h) hth hnext
  have hapart := SerialTaskQueue.apart (reachable_base h)
  have hcall : th.call = none := by
    rw [Option.eq_none_iff_forall_ne_some]
    rintro ⟨q, pt⟩ hcall
    obtain ⟨g, t, rfl⟩ := hexecute q pt (by rw [Thread.next?, hcall])
    cases hapart.calls th (List.mem_of_getElem? hth) q _ hcall
  refine ⟨hcall, fun q pt hjob => hexecute q pt ?_⟩
  rw [Thread.next?, hcall]
  exact hjob

/-- A thread goes on with the call that it is in. -/
lemma exists_proceed_call {i : ℕ} (hout : s.outsideQueues i = true)
    (hqueue : ∀ q op, ∃ b, SerialTaskQueue.step s.base (.call i q op) = some b)
    {body : Option (Body k)} {c : Call k} (hframe : s.frame i = ⟨body, some c⟩) :
    ∃ s', step s (.proceed i) = some s' ∧ s'.frame i ≠ s.frame i := by
  simp only [step, hout, if_true, State.proceed, hframe]
  cases hqueues : c.queues with
  | nil =>
    refine ⟨_, rfl, ?_⟩
    simp
  | cons q queues =>
    obtain ⟨b, hb⟩ := hqueue q (.push c.group (c.closure q))
    simp only [State.callQueue, hb, Option.map_some]
    refine ⟨_, rfl, ?_⟩
    intro heq
    simp only [Function.update_self, Frame.mk.injEq, Option.some.injEq, true_and] at heq
    have hlen := congrArg (fun c : Call k => c.queues.length) heq
    simp [hqueues] at hlen

/-- A thread goes on with the lambda that it executes. -/
lemma exists_proceed_body {i : ℕ} (hout : s.outsideQueues i = true)
    (hqueue : ∀ q op, ∃ b, SerialTaskQueue.step s.base (.call i q op) = some b) {x : Body k}
    (hframe : s.frame i = ⟨some x, none⟩) (hx : ∀ n, x ≠ .iAction n) :
    ∃ s', step s (.proceed i) = some s' ∧ s'.frame i ≠ s.frame i := by
  simp only [step, hout, if_true, State.proceed, hframe]
  cases x with
  | exchange c =>
    simp only
    split
    · refine ⟨_, rfl, ?_⟩
      simp
    · refine ⟨_, rfl, ?_⟩
      cases c <;> simp [Closure.afterExchange]
  | pause q n =>
    obtain ⟨b, hb⟩ := hqueue q .pause
    simp only [State.callQueue, hb, Option.map_some]
    refine ⟨_, rfl, ?_⟩
    simp
  | iAction n => exact absurd rfl (hx n)

/-- An action that is running can end. -/
lemma exists_actionEnds {i n : ℕ} (hout : s.outsideQueues i = true)
    (hframe : s.frame i = ⟨some (.iAction n), none⟩) :
    ∃ s', step s (.actionEnds i) = some s' ∧ s'.frame i ≠ s.frame i := by
  simp only [step, hout, hframe]
  refine ⟨_, rfl, ?_⟩
  simp

/-- Where nobody goes on, nothing is left of any call or lambda. -/
lemma frame_of_stuck (h : Reachable s) (hstuck : s.Stuck) (i : ℕ) : s.frame i = {} := by
  by_contra hne
  obtain ⟨th, hth, huser⟩ := (fits h).inUserCode hne
  obtain ⟨hnone, -⟩ := next?_of_stuck h hstuck hth
  have hout : s.outsideQueues i = true := by
    simp [State.outsideQueues, hth, hnone]
  have hqueue : ∀ q op, ∃ b, SerialTaskQueue.step s.base (.call i q op) = some b := fun q op => by
    simp [SerialTaskQueue.step, hth, hnone, huser]
  have hgoes : ∃ a s', a.continues = true ∧ step s a = some s' ∧ s'.frame i ≠ s.frame i := by
    rcases hframe : s.frame i with ⟨_ | x, _ | c⟩
    · exact absurd hframe hne
    · obtain ⟨s', hstep, hchange⟩ := exists_proceed_call hout hqueue hframe
      exact ⟨.proceed i, s', rfl, hstep, hframe ▸ hchange⟩
    · by_cases hx : ∃ n, x = .iAction n
      · obtain ⟨n, rfl⟩ := hx
        obtain ⟨s', hstep, hchange⟩ := exists_actionEnds hout hframe
        exact ⟨.actionEnds i, s', rfl, hstep, hframe ▸ hchange⟩
      · obtain ⟨s', hstep, hchange⟩ :=
          exists_proceed_body hout hqueue hframe fun n heq => hx ⟨n, heq⟩
        exact ⟨.proceed i, s', rfl, hstep, hframe ▸ hchange⟩
    · obtain ⟨s', hstep, hchange⟩ := exists_proceed_call hout hqueue hframe
      exact ⟨.proceed i, s', rfl, hstep, hframe ▸ hchange⟩
  obtain ⟨a, s', hcontinues, hstep, hchange⟩ := hgoes
  exact hchange (by rw [hstuck a s' hcontinues hstep])

/-- Where nobody goes on, every thread is idle. -/
lemma idle_of_stuck (h : Reachable s) (hstuck : s.Stuck) :
    ∀ th ∈ s.base.threads, th.next? = none := by
  rintro ⟨job, call⟩ hmem
  obtain ⟨i, hth⟩ := List.getElem?_of_mem hmem
  obtain ⟨hnone, hexecute⟩ := next?_of_stuck h hstuck hth
  obtain rfl : call = none := hnone
  cases job with
  | none => rfl
  | some c =>
    obtain ⟨q, pt⟩ := c
    obtain ⟨g, t, rfl⟩ := hexecute q pt rfl
    -- the lambda is over, so the task ends
    have hb : ∃ b, SerialTaskQueue.step s.base (.finish i false) = some b ∧
        b.threads[i]? = some ⟨some (q, .finishedTask g), none⟩ := by
      simp only [SerialTaskQueue.step, hth]
      exact ⟨_, rfl, List.getElem?_set_self (List.getElem?_eq_some_iff.mp hth).1⟩
    obtain ⟨b, hb, hget⟩ := hb
    have hstep : step s (.finish i false) = some { s with base := b } := by
      simp [step, frame_of_stuck h hstuck i, hb]
    have hbase : b = s.base := congrArg State.base (hstuck _ _ rfl hstep)
    rw [hbase, hth] at hget
    cases hget

/-- **No action is left behind.** -/
theorem ran_of_stuck (h : Reachable s) (hstuck : s.Stuck) {q : Fin k}
    (hpause : (s.base.queue q).pauseCount = 0) {n : ℕ} (hn : n < s.nextAction) :
    s.ran.count n = 1 := by
  have hframe := frame_of_stuck h hstuck
  have hidle := SerialTaskQueue.notMem_points_of_idle (idle_of_stuck h hstuck) q
  have hbase := reachable_base h
  have hbegun : (s.base.queue q).pushed = (s.base.queue q).begun := by
    rw [SerialTaskQueue.pushed_eq_of_idle hbase hidle,
      SerialTaskQueue.tasks_eq_nil_of_idle hbase hidle hpause, List.append_nil]
  have hreturned : n ∈ s.returned := by
    refine ((announced h).entered n hn).resolve_right ?_
    rintro ⟨i, c, hc, -⟩
    rw [hframe i] at hc
    cases hc
  obtain ⟨t, ht, heq⟩ := (announced h).returned n hreturned q
  have hclaimed : n ∈ s.claimed := by
    rw [← heq]
    refine (claimed_of_begun h q t (hbegun ▸ ht)).resolve_right ?_
    rintro ⟨i, th, g, c, -, -, hbody⟩
    rw [hframe i] at hbody
    cases hbody
  have hexecuting : s.executing.count n = 0 := by
    rw [count_executing]
    refine tally_eq_zero.mpr fun i _ => ?_
    rw [hframe i]
    rfl
  have hone := List.count_eq_one_of_mem (claims h).nodup hclaimed
  rw [(claims h).count, hexecuting] at hone
  exact hone

/-! ## The result -/

/-- **The contract of `LimitedTaskQueue`.** At most `k` actions are executing; none is run twice; the
action of a call that has returned before another call begins is claimed before the other's; and where
nobody goes on and some queue is not paused, every action has run once. -/
theorem limit_respected (h : Reachable s) :
    s.executing.length ≤ k ∧ (∀ n, s.ran.count n + s.executing.count n ≤ 1) ∧
      (∀ n m s', n ∈ s.returned → s.nextAction ≤ m → Reaches step s s' → m ∈ s'.claimed →
        [n, m].Sublist s'.claimed) ∧
      (s.Stuck → (∃ q, (s.base.queue q).pauseCount = 0) → ∀ n < s.nextAction, s.ran.count n = 1) := by
  refine ⟨length_executing_le h, count_le_one h, ?_, ?_⟩
  · intro n m s' hn hm hrun hclaimed
    exact claimed_in_order h hn hm hrun hclaimed
  · rintro hstuck ⟨q, hpause⟩ n hn
    exact ran_of_stuck h hstuck hpause hn

/-- What is left to the threads that there are. -/
lemma stuck_of_none (h : ∀ i < s.base.threads.length,
    ∀ a ∈ [Label.proceed i, .actionEnds i, .advance i, .finish i true, .finish i false],
      (step s a).isNone) : s.Stuck := by
  have hnone : ∀ i, ∀ a ∈ [Label.proceed i, .actionEnds i, .advance i, .finish i true, .finish i false],
      step s a = none := by
    intro i a ha
    by_cases hi : i < s.base.threads.length
    · exact Option.isNone_iff_eq_none.mp (h i hi a ha)
    · have hthread : s.base.threads[i]? = none := List.getElem?_eq_none (by omega)
      simp only [List.mem_cons, List.not_mem_nil, or_false] at ha
      rcases ha with rfl | rfl | rfl | rfl | rfl <;>
        simp [step, State.outsideQueues, SerialTaskQueue.step, hthread]
  intro a s' hcontinues hstep
  cases a with
  | proceed i => cases (hnone i _ (by simp)).symm.trans hstep
  | actionEnds i => cases (hnone i _ (by simp)).symm.trans hstep
  | advance i => cases (hnone i _ (by simp)).symm.trans hstep
  | finish i threw => cases (hnone i _ (by cases threw <;> simp)).symm.trans hstep
  | fork | push | pushAndPause | copy | move | release => cases hcontinues

/-- Thread 0 calls `pushAndPause` on two queues; thread 1 executes the lambda of the first queue and is
inside the action. -/
def pauseOne : List Label :=
  [[.fork, .pushAndPause 0 0, .proceed 0], .replicate 7 (.advance 0), [.proceed 0],
    .replicate 7 (.advance 0), [.proceed 0], .replicate 2 (.advance 1),
    [.proceed 1, .proceed 1, .advance 1]].flatten

/-- Thread 0 calls `push`; the action ends, and the first queue stays paused. Thread 2 executes both
lambdas of the second queue: the first one finds its action taken, the second one runs the other
action. -/
def pushBehind : List Label :=
  [[.push 0 0, .proceed 0], .replicate 2 (.advance 0), [.proceed 0], .replicate 5 (.advance 0),
    [.proceed 0, .actionEnds 1, .finish 1 false], .replicate 2 (.advance 1), .replicate 2 (.advance 2),
    [.proceed 2, .finish 2 false], .replicate 7 (.advance 2), [.proceed 2, .actionEnds 2, .finish 2 false],
    .replicate 7 (.advance 2)].flatten

theorem limit_respected_pauseOne : ∃ s s' : State 2, Reachable s ∧ Reaches step s s' ∧
    s.executing.length ≤ 2 ∧ (∀ n, s.ran.count n + s.executing.count n ≤ 1) ∧
      [0, 1].Sublist s'.claimed ∧ s'.resumers = [some 0] ∧ ∀ n < 2, s'.ran.count n = 1 := by
  have hrun : (executeAll step ({} : State 2) pauseOne).any fun s =>
      decide (0 ∈ s.returned ∧ s.nextAction = 1) && (executeAll step s pushBehind).any fun s' =>
        decide (1 ∈ s'.claimed ∧ s'.resumers = [some 0] ∧ s'.nextAction = 2 ∧
          (s'.base.queue 1).pauseCount = 0 ∧ ∀ i < s'.base.threads.length,
            ∀ a ∈ [Label.proceed i, .actionEnds i, .advance i, .finish i true, .finish i false],
              (step s' a).isNone) := by decide +kernel
  obtain ⟨s, hs, hrun⟩ := (Option.any_eq_true _ _).mp hrun
  obtain ⟨hfirst, hrun⟩ := (Bool.and_eq_true _ _).mp hrun
  obtain ⟨hreturned, hnext⟩ := of_decide_eq_true hfirst
  obtain ⟨s', hs', hrun⟩ := (Option.any_eq_true _ _).mp hrun
  obtain ⟨hclaimed, hresumers, hnext', hpause, hnone⟩ := of_decide_eq_true hrun
  have hreach : Reachable s := .of_executeAll _ hs
  have hlater : Reaches step s s' := .of_executeAll _ hs'
  obtain ⟨hlimit, honce, horder, -⟩ := limit_respected hreach
  obtain ⟨-, -, -, hall⟩ := limit_respected (hreach.trans hlater)
  refine ⟨s, s', hreach, hlater, hlimit, honce,
    horder 0 1 s' hreturned (by rw [hnext]) hlater hclaimed, hresumers, fun n hn => ?_⟩
  exact hall (stuck_of_none hnone) ⟨1, hpause⟩ n (by rw [hnext']; exact hn)

end UnifyPrototype.LimitedTaskQueue
