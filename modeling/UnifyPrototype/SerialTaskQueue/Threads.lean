import UnifyPrototype.SerialTaskQueue.Tasks
import UnifyPrototype.SerialTaskQueue.Order

/-!
# Which thread is where

A thread is inside a member function by a call of its user code, and in the runner loop by the
functor it runs. What a call of a member function adds to a queue, and what the end of an action takes
away, is known from the label of the step.
-/

namespace UnifyPrototype.SerialTaskQueue

open UnifyPrototype.Utils

variable {Q α : Type} [DecidableEq Q] {s s' : State Q α} {q : Q}

/-! ## Calls and functors -/

/-- Inside `push`, `pause` or `resume`. -/
def Point.inCall : Point α → Bool
  | .push _ | .pause | .resume | .pick .member _ | .spawn .member _ => true
  | _ => false

/-- Member functions are called by user code, and the functor runs the loop. -/
structure State.Apart (s : State Q α) : Prop where
  jobs : ∀ th ∈ s.threads, ∀ q pt, th.job = some (q, pt) → pt.inCall = false
  calls : ∀ th ∈ s.threads, ∀ q pt, th.call = some (q, pt) → pt.inCall = true
  user : ∀ th ∈ s.threads, th.call ≠ none → th.inUserCode = true

/-- An operation of a call leads to another one of the call. -/
lemma inCall_next {m : Queue α} {pt n : Point α} {r : Result α} (h : pt.step m = some r)
    (hn : r.next = some n) : n.inCall = pt.inCall := by
  cases operation h with
  | unlockSpawn c t =>
    obtain rfl := Option.some.inj hn
    cases c <;> rfl
  | notPaused c | spin c | lock c | alreadyChosen c | choose c | pop c | empty c | clear c =>
    obtain rfl := Option.some.inj hn
    cases c <;> rfl
  | pause | resume | paused | unlockNone | spawn => cases hn
  | push | resumeLast | unlockLoop | waiting | loop | finishedTask =>
    obtain rfl := Option.some.inj hn
    rfl

omit [DecidableEq Q] in
/-- A thread that changes and keeps job and call apart. -/
lemma apart_set {i : ℕ} {th : Thread Q α} (h : s.Apart) (threads : List (Thread Q α))
    (hthreads : ∀ th' ∈ threads, th' ∈ s.threads.set i th ∨ ∃ q t, th' = ⟨some (q, .waiting t), none⟩)
    (hjob : ∀ q pt, th.job = some (q, pt) → pt.inCall = false)
    (hcall : ∀ q pt, th.call = some (q, pt) → pt.inCall = true)
    (huser : th.call ≠ none → th.inUserCode = true) :
    State.Apart { s with threads := threads } := by
  refine ⟨fun th' hmem q pt hpt => ?_, fun th' hmem q pt hpt => ?_, fun th' hmem hne => ?_⟩
  · rcases hthreads th' hmem with hset | ⟨q', t, rfl⟩
    · rcases List.mem_or_eq_of_mem_set hset with hold | rfl
      · exact h.jobs th' hold q pt hpt
      · exact hjob q pt hpt
    · obtain ⟨-, rfl⟩ := Prod.mk.inj (Option.some.inj hpt)
      rfl
  · rcases hthreads th' hmem with hset | ⟨q', t, rfl⟩
    · rcases List.mem_or_eq_of_mem_set hset with hold | rfl
      · exact h.calls th' hold q pt hpt
      · exact hcall q pt hpt
    · cases hpt
  · rcases hthreads th' hmem with hset | ⟨q', t, rfl⟩
    · rcases List.mem_or_eq_of_mem_set hset with hold | rfl
      · exact h.user th' hold hne
      · exact huser hne
    · exact absurd rfl hne

/-- Each step keeps jobs and calls apart. -/
lemma apart_step {a : Label Q α} (h : s.Apart) (hstep : step s a = some s') : s'.Apart := by
  cases a with
  | fork =>
    obtain rfl := Option.some.inj hstep
    refine ⟨fun th hth q pt hpt => ?_, fun th hth q pt hpt => ?_, fun th hth hne => ?_⟩
    · rcases List.mem_append.mp hth with hth | hth
      · exact h.jobs th hth q pt hpt
      · obtain rfl := List.mem_singleton.mp hth
        cases hpt
    · rcases List.mem_append.mp hth with hth | hth
      · exact h.calls th hth q pt hpt
      · obtain rfl := List.mem_singleton.mp hth
        cases hpt
    · rcases List.mem_append.mp hth with hth | hth
      · exact h.user th hth hne
      · obtain rfl := List.mem_singleton.mp hth
        rfl
  | call i q' op =>
    obtain ⟨th, hth, -, huser, rfl⟩ := step_call hstep
    have hmem := List.mem_of_getElem? hth
    have hcalled : ∀ q pt, some (q', op.entry s.nextId) = some (q, pt) → pt.inCall = true := by
      intro q pt hpt
      obtain ⟨-, rfl⟩ := Prod.mk.inj (Option.some.inj hpt)
      cases op <;> rfl
    have hset : State.Apart { s with
        threads := s.threads.set i { th with call := some (q', op.entry s.nextId) } } :=
      apart_set h _ (fun th' hth' => .inl hth') (fun q pt hpt => h.jobs th hmem q pt hpt) hcalled
        fun _ => huser
    exact ⟨hset.jobs, hset.calls, hset.user⟩
  | advance i =>
    obtain ⟨⟨job, call⟩, q', pt, r, hth, hnext, hr, rfl⟩ := step_advance hstep
    have hmem := List.mem_of_getElem? hth
    have hnew : ∀ q n, r.next.map (q', ·) = some (q, n) → n.inCall = pt.inCall := by
      intro q n hn
      obtain ⟨n', hn', heq⟩ := Option.map_eq_some_iff.mp hn
      obtain ⟨-, rfl⟩ := Prod.mk.inj heq
      exact inCall_next hr hn'
    -- the threads that are spawned wait with their task and are in no call
    have hspawned : ∀ th' ∈ s.threads.set i (Thread.goto ⟨job, call⟩ (r.next.map (q', ·)))
        ++ r.spawned.toList.map (fun t => (⟨some (q', .waiting t), none⟩ : Thread Q α)),
        th' ∈ s.threads.set i (Thread.goto ⟨job, call⟩ (r.next.map (q', ·))) ∨
          ∃ q t, th' = ⟨some (q, .waiting t), none⟩ := by
      intro th' hth'
      rcases List.mem_append.mp hth' with hset | hmap
      · exact .inl hset
      · obtain ⟨t, -, rfl⟩ := List.mem_map.mp hmap
        exact .inr ⟨q', t, rfl⟩
    -- the innermost of the two moves: the call, or the functor if there is none
    cases call with
    | none =>
      have hset := apart_set h _ hspawned
        (fun q n hn => (hnew q n hn).trans (h.jobs _ hmem q' pt hnext)) (by rintro _ _ ⟨⟩)
        (fun hne => absurd rfl hne)
      exact ⟨hset.jobs, hset.calls, hset.user⟩
    | some c =>
      obtain rfl : c = (q', pt) := by simpa [Thread.next?] using hnext
      have huser : Thread.inUserCode ⟨job, some (q', pt)⟩ = true :=
        h.user _ hmem (Option.some_ne_none _)
      have hset := apart_set h _ hspawned (fun q n hn => h.jobs _ hmem q n hn)
        (fun q n hn => (hnew q n hn).trans (h.calls _ hmem q' pt rfl))
        fun _ => huser
      exact ⟨hset.jobs, hset.calls, hset.user⟩
  | finish i threw =>
    obtain ⟨q', g, t, hth, rfl⟩ := step_finish hstep
    have hjob : ∀ q pt, some (q', Point.finishedTask g) = some (q, pt) →
        (pt : Point α).inCall = false := by
      intro q pt hpt
      obtain ⟨-, rfl⟩ := Prod.mk.inj (Option.some.inj hpt)
      rfl
    have hset : State.Apart { s with
        threads := s.threads.set i ⟨some (q', .finishedTask g), none⟩ } :=
      apart_set h _ (fun th' hth' => .inl hth') hjob (by simp) fun hne => absurd rfl hne
    exact ⟨hset.jobs, hset.calls, hset.user⟩

/-- They are apart in every reachable state. -/
theorem apart (h : Reachable s) : s.Apart := by
  refine h.invariant ?_ fun _ _ _ hs _ hstep => apart_step hs hstep
  constructor
  all_goals
    intro th hth
    cases hth

/-- The program points of a queue are those of calls and of functors. -/
lemma mem_points_iff {pt : Point α} :
    pt ∈ s.points q ↔
      ∃ (i : ℕ) (th : Thread Q α), s.threads[i]? = some th ∧
        (th.job = some (q, pt) ∨ th.call = some (q, pt)) := by
  constructor
  · intro h
    obtain ⟨th, hth, hpt⟩ := List.mem_flatMap.mp h
    obtain ⟨i, hi⟩ := List.getElem?_of_mem hth
    refine ⟨i, th, hi, ?_⟩
    have hat : ∀ o : Option (Q × Point α), pt ∈ pointAt q o → o = some (q, pt) := by
      intro o ho
      cases o with
      | none => cases ho
      | some c =>
        obtain ⟨q', pt'⟩ := c
        by_cases heq : q' = q
        · subst heq
          rw [pointAt_self] at ho
          rw [List.mem_singleton.mp ho]
        · rw [pointAt_of_ne heq] at ho
          cases ho
    rcases List.mem_append.mp hpt with hpt | hpt
    · exact .inl (hat _ hpt)
    · exact .inr (hat _ hpt)
  · rintro ⟨i, th, hi, hpt⟩
    exact mem_points (List.mem_of_getElem? hi) hpt

/-- Where the call of a thread comes from. -/
lemma call_step {a : Label Q α} (hstep : step s a = some s') {j : ℕ} {th' : Thread Q α}
    {n : Point α} (hj : s'.threads[j]? = some th') (hcall : th'.call = some (q, n)) :
    (∃ th, s.threads[j]? = some th ∧ th.call = some (q, n)) ∨
      (∃ op, a = .call j q op ∧ n = op.entry s.nextId) ∨
      ∃ th pt r, s.threads[j]? = some th ∧ th.call = some (q, pt) ∧
        pt.step (s.queue q) = some r ∧ r.next = some n := by
  -- either it is the thread that has moved, or it was there before
  have hset : ∀ {i : ℕ} {th : Thread Q α}, (s.threads.set i th)[j]? = some th' →
      th = th' ∧ i = j ∨ s.threads[j]? = some th' := by
    intro i th h
    by_cases hij : i = j
    · subst hij
      rw [List.getElem?_set] at h
      split at h
      · split at h
        · exact .inl ⟨Option.some.inj h, rfl⟩
        · cases h
      · exact .inr h
    · rw [List.getElem?_set_ne hij] at h
      exact .inr h
  cases a with
  | fork =>
    obtain rfl := Option.some.inj hstep
    rcases Nat.lt_or_ge j s.threads.length with hlt | hge
    · exact .inl ⟨th', (List.getElem?_append_left hlt).symm.trans hj, hcall⟩
    · have hlast : th' ∈ [({} : Thread Q α)] :=
        List.mem_of_getElem? ((List.getElem?_append_right hge).symm.trans hj)
      obtain rfl := List.mem_singleton.mp hlast
      cases hcall
  | call i q' op =>
    obtain ⟨th, hth, -, -, rfl⟩ := step_call hstep
    rcases hset hj with ⟨rfl, rfl⟩ | hold
    · obtain ⟨rfl, rfl⟩ := Prod.mk.inj (Option.some.inj hcall)
      exact .inr (.inl ⟨op, rfl, rfl⟩)
    · exact .inl ⟨th', hold, hcall⟩
  | advance i =>
    obtain ⟨⟨job, call⟩, q', pt, r, hth, hnext, hr, rfl⟩ := step_advance hstep
    rcases Nat.lt_or_ge j (s.threads.set i (Thread.goto ⟨job, call⟩ (r.next.map (q', ·)))).length
      with hlt | hge
    · rcases hset ((List.getElem?_append_left hlt).symm.trans hj) with ⟨rfl, rfl⟩ | hold
      · cases call with
        | none => cases hcall
        | some c =>
          obtain rfl : c = (q', pt) := by simpa [Thread.next?] using hnext
          obtain ⟨n', hn', heq⟩ := Option.map_eq_some_iff.mp hcall
          obtain ⟨rfl, rfl⟩ := Prod.mk.inj heq
          exact .inr (.inr ⟨_, pt, r, hth, rfl, hr, hn'⟩)
      · exact .inl ⟨th', hold, hcall⟩
    · have hlast := List.mem_of_getElem? ((List.getElem?_append_right hge).symm.trans hj)
      obtain ⟨t, -, rfl⟩ := List.mem_map.mp hlast
      cases hcall
  | finish i threw =>
    obtain ⟨q', g, t, hth, rfl⟩ := step_finish hstep
    rcases hset hj with ⟨rfl, rfl⟩ | hold
    · cases hcall
    · exact .inl ⟨th', hold, hcall⟩

/-- In user code the functor of a thread stays where it is until the action ends. -/
lemma job_of_inUserCode {a : Label Q α} (h : step s a = some s') {j : ℕ} {th : Thread Q α}
    (hj : s.threads[j]? = some th) (huser : th.inUserCode = true)
    (hfinish : ∀ threw, a ≠ .finish j threw) :
    ∃ th', s'.threads[j]? = some th' ∧ th'.job = th.job := by
  have hlt := (List.getElem?_eq_some_iff.mp hj).1
  have hset : ∀ {i : ℕ} {th₀ : Thread Q α} (th₁ : Thread Q α), s.threads[i]? = some th₀ →
      th₁.job = th₀.job ∨ i ≠ j →
      ∃ th', (s.threads.set i th₁)[j]? = some th' ∧ th'.job = th.job := by
    intro i th₀ th₁ hi hjob
    by_cases hij : i = j
    · subst hij
      obtain rfl : th₀ = th := Option.some.inj (hi.symm.trans hj)
      exact ⟨th₁, List.getElem?_set_self hlt, hjob.resolve_right fun hne => hne rfl⟩
    · exact ⟨th, (List.getElem?_set_ne hij).trans hj, rfl⟩
  cases a with
  | fork =>
    obtain rfl := Option.some.inj h
    exact ⟨th, (List.getElem?_append_left hlt).trans hj, rfl⟩
  | call i q op =>
    obtain ⟨th₀, hi, -, -, rfl⟩ := step_call h
    exact hset _ hi (.inl rfl)
  | advance i =>
    obtain ⟨⟨job, call⟩, q, pt, r, hi, hnext, hr, rfl⟩ := step_advance h
    have hjob : (Thread.goto ⟨job, call⟩ (r.next.map (q, ·))).job = job ∨ i ≠ j := by
      cases call with
      | some c => exact .inl rfl
      | none =>
        -- the operation is the functor's own, so the thread is not in user code
        refine .inr fun hij => ?_
        subst hij
        obtain rfl := Option.some.inj (hi.symm.trans hj)
        obtain rfl : job = some (q, pt) := hnext
        cases pt with
        | execute g t => cases hr
        | _ => cases huser
    obtain ⟨th', hth', hsame⟩ := hset _ hi hjob
    refine ⟨th', ?_, hsame⟩
    unfold State.put
    rw [List.getElem?_append_left (by simpa using hlt)]
    exact hth'
  | finish i threw =>
    obtain ⟨q, g, t, hi, rfl⟩ := step_finish h
    refine hset _ hi (.inr ?_)
    rintro rfl
    exact hfinish threw rfl

/-! ## What is in a queue -/

/-- A call of a member function adds its entry point. -/
lemma count_call {i : ℕ} {q' : Q} {op : Op α} (h : step s (.call i q' op) = some s')
    (w : Point α → ℕ) (q : Q) :
    s'.queue = s.queue ∧
      s'.count w q = s.count w q + if q' = q then w (op.entry s.nextId) else 0 := by
  obtain ⟨th, hth, hcall, -, rfl⟩ := step_call h
  have hset := count_set w q { th with call := some (q', op.entry s.nextId) } hth
  simp only [Thread.weight, hcall, pointAt_none, tally_nil] at hset
  refine ⟨rfl, ?_⟩
  by_cases hq : q' = q
  · subst hq
    simp only [pointAt_self, tally_cons, tally_nil, if_true] at hset ⊢
    simp only [count_eq_tally] at hset ⊢
    omega
  · simp only [pointAt_of_ne hq, tally_nil, if_neg hq] at hset ⊢
    simp only [count_eq_tally] at hset ⊢
    omega

/-- The weight of a task that is about to be pushed. -/
def Point.pushing (v : QueuedTask α → ℕ) : Point α → ℕ
  | .push t => v t
  | _ => 0

omit [DecidableEq Q] in
/-- What is about to be pushed is pushed. -/
lemma pushing_step {m : Queue α} {pt : Point α} {r : Result α} (v : QueuedTask α → ℕ)
    (h : pt.step m = some r) :
    r.weight (Point.pushing v) + tally v r.queue.pushed = pt.pushing v + tally v m.pushed := by
  cases operation h with
  | push t => simp [Result.weight, Point.pushing, Nat.add_comm]
  | _ => simp [Result.weight, Point.pushing]

/-- The weight of the tasks of queue `q`, in `m_tasks` and with the threads. -/
def State.held (s : State Q α) (v : QueuedTask α → ℕ) (q : Q) : ℕ :=
  s.count (fun pt => tally v pt.tasks) q + tally v (s.queue q).tasks

/-- A call brings its task with it. -/
lemma held_call {i : ℕ} {q' : Q} {op : Op α} (h : step s (.call i q' op) = some s')
    (v : QueuedTask α → ℕ) (q : Q) :
    s'.held v q = s.held v q + if q' = q then tally v (op.entry s.nextId).tasks else 0 := by
  obtain ⟨hqueue, hcount⟩ := count_call h (fun pt => tally v pt.tasks) q
  rw [State.held, State.held, hqueue, hcount]
  omega

/-- An operation neither makes a task nor loses one. -/
lemma held_advance {i : ℕ} (h : step s (.advance i) = some s') (v : QueuedTask α → ℕ) (q : Q) :
    s'.held v q = s.held v q := by
  unfold State.held
  cases step_at q h with
  | elsewhere hqueue hcount => rw [hqueue, hcount]
  | entered op hqueue hid hcount =>
    obtain ⟨th, q', pt, r, -, -, -, rfl⟩ := step_advance h
    exact absurd hid (Nat.lt_succ_self _).ne
  | moved j th pt r _ _ _ _ hr hqueue hcount =>
    have htasks := tasks_step v hr
    have hmove := hcount fun pt => tally v pt.tasks
    rw [hqueue]
    omega
  | finished j threw g t hlabel => cases hlabel

/-- Only the end of an action takes a task away. -/
lemma held_finish {i : ℕ} {threw : Bool} (h : step s (.finish i threw) = some s') :
    ∃ q' g t, s.threads[i]? = some ⟨some (q', .execute g t), none⟩ ∧
      ∀ v q, s'.held v q + (if q' = q then v t else 0) = s.held v q := by
  obtain ⟨q', g, t, hth, rfl⟩ := step_finish h
  refine ⟨q', g, t, hth, fun v q => ?_⟩
  have hset := count_set (fun pt => tally v pt.tasks) q ⟨some (q', .finishedTask g), none⟩ hth
  simp only [Thread.weight, pointAt_none, tally_nil] at hset
  by_cases hq : q' = q
  · subst hq
    have hone : tally v (Point.execute g t).tasks = v t := by simp [Point.tasks]
    have hnone : tally v (Point.finishedTask g : Point α).tasks = 0 := rfl
    simp only [pointAt_self, tally_cons, tally_nil, hone, hnone] at hset
    simp only [State.held, count_eq_tally, if_true] at hset ⊢
    omega
  · simp only [pointAt_of_ne hq, tally_nil] at hset
    simp only [State.held, count_eq_tally, if_neg hq] at hset ⊢
    omega

/-- A new thread has no task. -/
lemma held_fork (h : step s .fork = some s') (v : QueuedTask α → ℕ) (q : Q) :
    s'.held v q = s.held v q := by
  obtain rfl := Option.some.inj h
  simp [State.held, count_eq_tally, Thread.weight]

/-- The weight of the tasks that were pushed onto queue `q`, or are about to be. -/
def State.announced (s : State Q α) (v : QueuedTask α → ℕ) (q : Q) : ℕ :=
  s.count (Point.pushing v) q + tally v (s.queue q).pushed

lemma announced_call {i : ℕ} {q' : Q} {op : Op α} (h : step s (.call i q' op) = some s')
    (v : QueuedTask α → ℕ) (q : Q) :
    s'.announced v q = s.announced v q
      + if q' = q then Point.pushing v (op.entry s.nextId) else 0 := by
  obtain ⟨hqueue, hcount⟩ := count_call h (Point.pushing v) q
  rw [State.announced, State.announced, hqueue, hcount]
  omega

/-- Only a call makes a new task. -/
lemma nextId_eq {a : Label Q α} (h : step s a = some s') (hcall : ∀ i q op, a ≠ .call i q op) :
    s'.nextId = s.nextId := by
  cases a with
  | fork => obtain rfl := Option.some.inj h; rfl
  | call i q op => exact absurd rfl (hcall i q op)
  | advance i => obtain ⟨th, q, pt, r, -, -, -, rfl⟩ := step_advance h; rfl
  | finish i threw => obtain ⟨q, g, t, -, rfl⟩ := step_finish h; rfl

/-- Without a call, nothing else is going to be pushed. -/
lemma announced_step {a : Label Q α} (h : step s a = some s') (hcall : ∀ i q op, a ≠ .call i q op)
    (v : QueuedTask α → ℕ) (q : Q) : s'.announced v q = s.announced v q := by
  unfold State.announced
  cases step_at q h with
  | elsewhere hqueue hcount => rw [hqueue, hcount]
  | entered op hqueue hid hcount =>
    rw [nextId_eq h hcall] at hid
    omega
  | moved i th pt r _ _ _ _ hr hqueue hcount =>
    have hlocal := pushing_step v hr
    have hmove := hcount (Point.pushing v)
    rw [hqueue]
    omega
  | finished i threw g t _ _ _ hqueue hcount =>
    have hmove := hcount (Point.pushing v)
    simp only [Point.pushing, Nat.add_zero] at hmove
    rw [hqueue, hmove]

end UnifyPrototype.SerialTaskQueue
