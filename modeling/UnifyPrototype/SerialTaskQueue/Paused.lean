import UnifyPrototype.SerialTaskQueue.Progress

/-!
# What `pause` and `resume` return, and what a pause lets through

Of all calls of `pause` and `resume`, the ones that return `true` are those that switch `isPaused()`,
in whatever order the threads make them. While the queue is paused nobody begins to look for a task,
but whoever has read `m_pauseCount` before may still take one: one each, and no more.
-/

namespace UnifyPrototype.SerialTaskQueue

open UnifyPrototype.Utils

variable {Q α : Type} [DecidableEq Q] {s s' t : State Q α} {q : Q} {a : Label Q α}

/-- `isPaused`. -/
def Queue.isPaused (m : Queue α) : Bool :=
  m.pauseCount != 0

/-! ## What the calls return -/

/-- A call of `pause` or of `resume` has returned `true`. -/
inductive Switch
  | paused
  | restarted
deriving DecidableEq, Repr

/-- The call at `q` that a step ends, if it returns `true`. -/
def switch (q : Q) (s : State Q α) : Label Q α → Option Switch
  | .advance i =>
    match (s.threads[i]?).bind Thread.next? with
    | some (q', .pause) => if q' = q ∧ (s.queue q).pause.2 = true then some .paused else none
    | some (q', .resume) =>
      if q' = q ∧ (s.queue q).resume.any (·.2) = true then some .restarted else none
    | _ => none
  | _ => none

/-- The calls at `q` that return `true` in a run. -/
def switches (q : Q) : State Q α → List (Label Q α) → List Switch
  | _, [] => []
  | s, a :: as => (switch q s a).toList ++ (step s a).elim [] fun t => switches q t as

/-- The calls switch the queue between not paused and paused, from `b` to `b'`. -/
inductive Alternates : Bool → List Switch → Bool → Prop
  | none (b : Bool) : Alternates b [] b
  | paused {cs : List Switch} {b : Bool} (h : Alternates true cs b) : Alternates false (.paused :: cs) b
  | restarted {cs : List Switch} {b : Bool} (h : Alternates false cs b) :
      Alternates true (.restarted :: cs) b

omit [DecidableEq Q] in
/-- An operation other than these leaves `m_pauseCount` alone. -/
lemma pauseCount_of_other {m : Queue α} {pt : Point α} {r : Result α} (h : pt.step m = some r)
    (hpause : pt ≠ .pause) (hresume : pt ≠ .resume) : r.queue.pauseCount = m.pauseCount := by
  have hmove := (pauseCount_step h).1
  cases pt with
  | pause => exact absurd rfl hpause
  | resume => exact absurd rfl hresume
  | _ => exact hmove

omit [DecidableEq Q] in
lemma isPaused_iff {m : Queue α} : m.isPaused = true ↔ m.pauseCount ≠ 0 := by
  simp [Queue.isPaused]

/-- An operation at the queue: what `pause` and `resume` return is whether they switch it. -/
lemma alternates_operation {i : ℕ} {th : Thread Q α} {pt : Point α} {r : Result α}
    (hi : s.threads[i]? = some th) (hnext : th.next? = some (q, pt))
    (hr : pt.step (s.queue q) = some r) :
    Alternates (s.queue q).isPaused (switch q s (.advance i)).toList r.queue.isPaused := by
  unfold switch
  simp only [hi, Option.bind_some, hnext]
  cases pt with
  | pause =>
    obtain rfl := Option.some.inj hr
    by_cases hzero : (s.queue q).pauseCount = 0
    · simp only [Queue.isPaused, Queue.pause, hzero]
      exact .paused (.none true)
    · have hpaused : (s.queue q).isPaused = true := isPaused_iff.mpr hzero
      have hlater : (s.queue q).pause.1.isPaused = true := rfl
      rw [hpaused, hlater]
      simp only [Queue.pause, true_and, beq_iff_eq]
      rw [if_neg (by omega)]
      exact .none true
  | resume =>
    cases operation hr with
    | @resume n hcount =>
      simp [Queue.isPaused, Queue.resume, hcount]
      exact .none true
    | resumeLast hcount =>
      simp only [Queue.isPaused, Queue.resume, hcount]
      exact .restarted (.none false)
  | _ =>
    have hsame : r.queue.isPaused = (s.queue q).isPaused := by
      unfold Queue.isPaused
      rw [pauseCount_of_other hr (by simp) (by simp)]
    rw [hsame]
    exact .none _

/-- One step: a call that returns `true` switches the queue, and nothing else does. -/
lemma alternates_step (hstep : step s a = some s') :
    Alternates (s.queue q).isPaused (switch q s a).toList (s'.queue q).isPaused := by
  by_cases hadvance : ∃ i, a = .advance i
  · obtain ⟨i, rfl⟩ := hadvance
    obtain ⟨th, q', pt, r, hi, hnext, hr, rfl⟩ := step_advance hstep
    by_cases hq : q' = q
    · subst hq
      have hqueue : ((s.put i (th.goto (r.next.map (q', ·))) q' r).queue q') = r.queue := by
        simp [State.put]
      rw [hqueue]
      exact alternates_operation hi hnext hr
    · have hqueue : ((s.put i (th.goto (r.next.map (q', ·))) q' r).queue q) = s.queue q := by
        simp [State.put, Function.update_of_ne (Ne.symm hq)]
      have hnone : switch q s (.advance i) = none := by
        unfold switch
        simp only [hi, Option.bind_some, hnext]
        cases pt <;> simp [hq]
      rw [hqueue, hnone]
      exact .none _
  · have hother : ∀ i, a ≠ .advance i := fun i ha => hadvance ⟨i, ha⟩
    have hnone : switch q s a = none := by
      cases a with
      | advance i => exact absurd rfl (hother i)
      | _ => rfl
    unfold Queue.isPaused
    rw [hnone, pauseCount_eq hstep hother q]
    exact .none _

/-- Two runs, one after the other. -/
lemma Alternates.append {b b' b'' : Bool} {cs cs' : List Switch} (h : Alternates b cs b')
    (h' : Alternates b' cs' b'') : Alternates b (cs ++ cs') b'' := by
  induction h with
  | none b => exact h'
  | paused _ ih => exact .paused (ih h')
  | restarted _ ih => exact .restarted (ih h')

/-- Along a run the switches go back and forth. -/
lemma alternates_run {as : List (Label Q α)} (h : executeAll step s as = some t) :
    Alternates (s.queue q).isPaused (switches q s as) (t.queue q).isPaused := by
  induction as generalizing s with
  | nil =>
    obtain rfl := Option.some.inj h
    exact .none _
  | cons a as ih =>
    simp only [executeAll, execute, if_true] at h
    obtain ⟨u, hu, hrest⟩ := Option.bind_eq_some_iff.mp h
    simp only [switches, hu, Option.elim_some]
    exact (alternates_step hu).append (ih hrest)

/-! ## What a pause lets through -/

/-- Inside `pickNextTask` with a read of `m_pauseCount` behind, and with a `try_pop` to come. -/
def Point.mayPop : Point α → ℕ
  | .pick _ .lockPicking | .pick _ .chooseTask | .pick _ .tryPop => 1
  | _ => 0

omit [DecidableEq Q] in
/-- While the queue is paused an operation pops only for a thread that had read `m_pauseCount`. -/
lemma mayPop_step {m : Queue α} {pt : Point α} {r : Result α} (h : pt.step m = some r)
    (hpaused : m.pauseCount ≠ 0) :
    r.queue.popped.length + r.weight Point.mayPop ≤ m.popped.length + pt.mayPop := by
  cases operation h with
  | notPaused c hcount => exact absurd hcount hpaused
  | _ => simp [Result.weight, Point.mayPop]

/-- So does a step: what is popped was to be popped before. -/
lemma popped_step (hstep : step s a = some s') (hpaused : (s.queue q).pauseCount ≠ 0) :
    (s'.queue q).popped.length + s'.count Point.mayPop q
      ≤ (s.queue q).popped.length + s.count Point.mayPop q := by
  cases step_at q hstep with
  | elsewhere hqueue hcount => rw [hqueue, hcount]
  | entered op hqueue hid hcount =>
    have hentry : (op.entry s.nextId).mayPop = 0 := by cases op <;> rfl
    rw [hqueue, hcount, hentry]
    omega
  | moved i th pt r _ _ _ _ hr hqueue hcount =>
    have hpop := mayPop_step hr hpaused
    have hmove := hcount Point.mayPop
    rw [hqueue]
    omega
  | finished i threw g t _ _ _ hqueue hcount =>
    have hmove := hcount Point.mayPop
    rw [hqueue]
    simp only [Point.mayPop] at hmove
    omega

/-- What a run does while the queue `q` is paused. -/
def staysPaused (q : Q) (s : State Q α) (_ : Label Q α) : Bool :=
  (s.queue q).isPaused

/-- **What the calls return is what they do, and a pause lets through one task for each thread that
was too far.** In every run from empty queues, the calls of `pause` and `resume` on a queue that return
`true` are, one after the other, a pause and the resume that ends it, and the queue is paused if and
only if the last of them was a pause. From any state on, as long as the queue stays paused, no more
tasks are taken than there were threads with a `try_pop` to come that had read `m_pauseCount` before. -/
theorem pause_lets_through (q : Q) {as bs : List (Label Q α)} (h : executeAll step {} as = some s)
    (hpaused : execute step (staysPaused q) s bs = some t) :
    Alternates false (switches q {} as) (s.queue q).isPaused ∧
    (t.queue q).popped.length ≤ (s.queue q).popped.length + s.count Point.mayPop q := by
  refine ⟨alternates_run h, ?_⟩
  have hrun : RunsTo step (fun s _ => (s.queue q).pauseCount ≠ 0) s t :=
    .of_execute bs (fun _ _ hok => isPaused_iff.mp hok) hpaused
  have hle : (t.queue q).popped.length + t.count Point.mayPop q
      ≤ (s.queue q).popped.length + s.count Point.mayPop q :=
    hrun.invariant (I := fun u => (u.queue q).popped.length + u.count Point.mayPop q
        ≤ (s.queue q).popped.length + s.count Point.mayPop q) le_rfl
      fun u a u' hu hok hstep => (popped_step hstep hok).trans hu
  omega

/-- A push reads `m_pauseCount` before another thread pauses the queue. -/
def pushThenPause : List (Label Unit ℕ) :=
  [.fork, .fork, .call 0 () (.push 0 7), .advance 0, .advance 0, .call 1 () .pause, .advance 1]

/-- It takes its task all the same. -/
theorem pause_lets_through_pushThenPause : ∃ s t : State Unit ℕ,
    executeAll step {} pushThenPause = some s ∧
    execute step (staysPaused ()) s [.advance 0, .advance 0, .advance 0] = some t ∧
    Alternates false (switches () {} pushThenPause) true ∧
    (t.queue ()).popped.length = 1 ∧ (t.queue ()).popped.length ≤ 0 + 1 := by
  have hrun : ∃ s t : State Unit ℕ, executeAll step {} pushThenPause = some s ∧
      execute step (staysPaused ()) s [.advance 0, .advance 0, .advance 0] = some t ∧
      (s.queue ()).isPaused = true ∧ (s.queue ()).popped.length = 0 ∧
      s.count Point.mayPop () = 1 ∧ (t.queue ()).popped.length = 1 :=
    ⟨_, _, rfl, rfl, rfl, rfl, rfl, rfl⟩
  obtain ⟨s, t, hs, ht, hpaused, hnone, hone, hlength⟩ := hrun
  have hmain := pause_lets_through () hs ht
  rw [hpaused, hnone, hone] at hmain
  exact ⟨s, t, hs, ht, hmain.1, hlength, hmain.2⟩

end UnifyPrototype.SerialTaskQueue
