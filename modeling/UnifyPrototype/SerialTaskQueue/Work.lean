import UnifyPrototype.SerialTaskQueue.Progress
import UnifyPrototype.Utils.Cost

/-!
# How much work a queue makes

A runner loops, and whoever calls `push` or `resume` may find itself starting the task of another
call. Still, all threads together do a bounded number of operations for each call, failed attempts to
take the spin lock apart; and these are made only while the holder of the lock goes on.
-/

namespace UnifyPrototype.SerialTaskQueue

open UnifyPrototype.Utils

variable {Q α : Type} [DecidableEq Q] {s s' : State Q α} {q : Q} {a : Label Q α}

/-! ## What is left to do -/

/-- The operations that `pickNextTask` has left, and those of the task that it has popped. -/
def Pick.remaining : Pick α → ℕ
  | .readPauseCount => 6
  | .lockPicking => 5
  | .chooseTask => 4
  | .tryPop => 3
  | .clearChosen => 2
  | .unlockPicking none => 1
  | .unlockPicking (some _) => 11

/-- The operations that a thread has left, those of the runner that it starts and of the task that it
pushes included. -/
def Point.remaining : Point α → ℕ
  | .push _ => 16
  | .pause => 1
  | .resume => 7
  | .pick _ p => p.remaining
  | .spawn _ _ => 10
  | .waiting _ => 9
  | .loop _ _ => 8
  | .execute _ _ | .finishedTask _ => 7

/-- A task that waits in `m_tasks` has paid for what comes after its `try_pop`. -/
def State.potential (s : State Q α) (q : Q) : ℕ :=
  s.count Point.remaining q + 9 * (s.queue q).tasks.length

/-- One for an operation at `q` that is no failed attempt to take the lock. -/
def operationAt (q : Q) (s : State Q α) : Label Q α → ℕ
  | .advance i =>
    match (s.threads[i]?).bind Thread.next? with
    | some (q', pt) => if q' = q ∧ pt.spins (s.queue q) = false then 1 else 0
    | none => 0
  | _ => 0

/-- What a call of a member function of `q` is paid. -/
def price (q : Q) : Label Q α → ℕ
  | .call _ q' (.push _ _) => if q' = q then 16 else 0
  | .call _ q' .pause => if q' = q then 1 else 0
  | .call _ q' .resume => if q' = q then 7 else 0
  | _ => 0

/-- A call is paid for at its own queue. -/
lemma price_call (i : ℕ) (q' : Q) (op : Op α) (id : ℕ) :
    price q (.call i q' op) = if q' = q then (op.entry id).remaining else 0 := by
  cases op <;> rfl

/-! ## Steps -/

omit [DecidableEq Q] in
/-- Each operation has been paid for. -/
lemma remaining_step {m : Queue α} {pt : Point α} {r : Result α} (h : pt.step m = some r) :
    (if pt.spins m = false then 1 else 0) + r.weight Point.remaining + 9 * r.queue.tasks.length
      ≤ pt.remaining + 9 * m.tasks.length := by
  cases operation h with
  | push t =>
    simp only [Result.weight, Point.remaining, Pick.remaining, Point.spins, Option.elim_some,
      Option.elim_none, List.length_append, List.length_singleton, if_true]
    omega
  | pop c htasks =>
    simp only [Result.weight, Point.remaining, Pick.remaining, Point.spins, Option.elim_some,
      Option.elim_none, htasks, List.length_cons, if_true]
    omega
  | spin c hlock => simp [Result.weight, Point.remaining, Pick.remaining, Point.spins, hlock]
  | lock c hlock => simp [Result.weight, Point.remaining, Pick.remaining, Point.spins, hlock]
  | _ => simp [Result.weight, Point.remaining, Pick.remaining, Point.spins]

/-- Each operation is paid for by the potential or by the price of its step. -/
lemma potential_step (hstep : step s a = some s') :
    operationAt q s a + s'.potential q ≤ s.potential q + price q a := by
  unfold State.potential
  cases a with
  | fork =>
    obtain rfl := Option.some.inj hstep
    have hcount : State.count { s with threads := s.threads ++ [{}] } Point.remaining q
        = s.count Point.remaining q := by
      simp [count_eq_tally, Thread.weight]
    rw [hcount]
    simp only [operationAt, price]
    omega
  | call i q' op =>
    obtain ⟨hqueue, hcount⟩ := count_call hstep Point.remaining q
    rw [hqueue, hcount, price_call i q' op s.nextId]
    simp only [operationAt]
    omega
  | advance i =>
    obtain ⟨th, q', pt, r, hth, hnext, hr, rfl⟩ := step_advance hstep
    have hput := count_put Point.remaining q r hth hnext
    have hpaid := remaining_step hr
    have hoperation : operationAt q s (.advance i)
        = if q' = q ∧ pt.spins (s.queue q) = false then 1 else 0 := by
      simp only [operationAt, hth, Option.bind_some, hnext]
    rw [hoperation]
    by_cases hq : q' = q
    · subst hq
      have hqueue : ((s.put i (th.goto (r.next.map (q', ·))) q' r).queue q') = r.queue := by
        simp [State.put]
      rw [if_pos rfl, if_pos rfl] at hput
      simp only [hqueue, true_and, price]
      omega
    · have hqueue : ((s.put i (th.goto (r.next.map (q', ·))) q' r).queue q) = s.queue q := by
        simp [State.put, Function.update_of_ne (Ne.symm hq)]
      rw [if_neg hq, if_neg hq] at hput
      rw [hqueue, if_neg (fun h => hq h.1)]
      simp only [price]
      omega
  | finish i threw =>
    cases step_at q hstep with
    | elsewhere hqueue hcount =>
      rw [hqueue, hcount]
      simp only [operationAt, price]
      omega
    | entered op hqueue hid =>
      obtain ⟨q', g, t, -, rfl⟩ := step_finish hstep
      exact absurd hid (Nat.lt_succ_self _).ne
    | moved j th pt r hlabel => cases hlabel
    | finished j threw g t _ _ _ hqueue hcount =>
      have hmove := hcount Point.remaining
      rw [hqueue]
      simp only [Point.remaining, operationAt, price] at hmove ⊢
      omega

/-! ## Someone goes on -/

/-- A thread whose next operation is possible can make it, and it counts unless it spins. -/
lemma exists_operation {i : ℕ} {th : Thread Q α} {pt : Point α} (hi : s.threads[i]? = some th)
    (hnext : th.next? = some (q, pt)) (hresume : pt = .resume → (s.queue q).pauseCount ≠ 0)
    (hexecute : ¬ ∃ g t, pt = .execute g t) (hspins : pt.spins (s.queue q) = false) :
    ∃ j s', step s (.advance j) = some s' ∧ operationAt q s (.advance j) = 1 := by
  obtain ⟨s', hstep, -⟩ := exists_advance hi hnext hresume hexecute hspins
  refine ⟨i, s', hstep, ?_⟩
  simp only [operationAt, hi, Option.bind_some, hnext, true_and]
  exact if_pos hspins

/-- Whoever fails to take the lock finds its holder ready to go on. -/
lemma exists_operation_of_mem (h : Reachable s) {pt : Point α} (hmem : pt ∈ s.points q)
    (hresume : pt = .resume → (s.queue q).pauseCount ≠ 0)
    (hexecute : ¬ ∃ g t, pt = .execute g t) :
    ∃ j s', step s (.advance j) = some s' ∧ operationAt q s (.advance j) = 1 := by
  obtain ⟨i, th, hi, hat⟩ := mem_points_iff.mp hmem
  have hnext : th.next? = some (q, pt) := by
    cases hat with
    | inl hjob => exact next?_of_job (apart h) hi hjob hexecute
    | inr hcall =>
      unfold Thread.next?
      rw [hcall]
  cases hspins : pt.spins (s.queue q) with
  | false => exact exists_operation hi hnext hresume hexecute hspins
  | true =>
    have hlock : (s.queue q).pickingNextTask = true := by
      unfold Point.spins at hspins
      split at hspins
      · exact hspins
      · cases hspins
    obtain ⟨j, th', c, p, hj, hnext', hone⟩ := exists_locking h hlock
    have hspins' : (Point.pick c p).spins (s.queue q) = false := by
      cases p with
      | lockPicking => cases hone
      | _ => rfl
    exact exists_operation hj hnext' (by simp) (by simp) hspins'

/-- **A queue makes a bounded amount of work and never stands still.** In every run all threads together
have done at most 16 operations at a queue for each call of `push`, one for each `pause` and 7 for
each `resume`, not counting failed attempts to take the spin lock; and as long as some thread is inside
a member function or a runner of the queue and not inside an action, some thread can do such an
operation there (a `resume` of a queue that is not paused apart). -/
theorem work_bounded (q : Q) {as : List (Label Q α)} (h : executeAll step {} as = some s) :
    totalCost step (operationAt q) {} as ≤ tally (price q) as ∧
    ∀ pt ∈ s.points q, (pt = .resume → (s.queue q).pauseCount ≠ 0) → (¬ ∃ g t, pt = .execute g t) →
      ∃ j s', step s (.advance j) = some s' ∧ operationAt q s (.advance j) = 1 := by
  have hreach : Reachable s := .of_executeAll as h
  refine ⟨?_, fun pt hmem hresume hexecute => exists_operation_of_mem hreach hmem hresume hexecute⟩
  have htotal : totalCost step (operationAt q) {} as + s.potential q
      ≤ State.potential ({} : State Q α) q + tally (price q) as :=
    totalCost_le (I := fun _ => True) as h trivial
      fun s a s' _ _ hstep => ⟨trivial, potential_step hstep⟩
  have hzero : State.potential ({} : State Q α) q = 0 := rfl
  omega

/-- One task is pushed and run to its end: all that a push is paid is used. -/
def pushAndFinish : List (Label Unit ℕ) :=
  [[.fork, .call 0 () (.push 0 7)], .replicate 7 (.advance 0), [.advance 1, .advance 1, .finish 1 false],
    .replicate 7 (.advance 1)].flatten

theorem work_bounded_pushAndFinish :
    totalCost step (operationAt ()) ({} : State Unit ℕ) pushAndFinish ≤ 16 ∧
      totalCost step (operationAt ()) ({} : State Unit ℕ) pushAndFinish = 16 := by
  have hrun : ∃ s : State Unit ℕ, executeAll step {} pushAndFinish = some s := ⟨_, rfl⟩
  obtain ⟨s, hs⟩ := hrun
  exact ⟨(work_bounded () hs).1, rfl⟩

end UnifyPrototype.SerialTaskQueue
