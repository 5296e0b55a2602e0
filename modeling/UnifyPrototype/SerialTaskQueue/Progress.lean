import UnifyPrototype.SerialTaskQueue.Threads

/-!
# Where no thread can go on

A thread at a queue can always make its next operation, unless it is inside the action of a task or
spins on the lock; and then the one who holds the lock can. So where nobody goes on, the threads are
inside actions or idle, and a queue without threads has nothing left to do unless it is paused.
-/

namespace UnifyPrototype.SerialTaskQueue

open UnifyPrototype.Utils

variable {Q α : Type} [DecidableEq Q] {s s' : State Q α} {q : Q}

/-! ## One thread -/

/-- A failed attempt to take the spin lock. -/
def Point.spins (m : Queue α) : Point α → Bool
  | .pick _ .lockPicking => m.pickingNextTask
  | _ => false

/-- An operation that does not spin goes on. -/
lemma next_ne {m : Queue α} {pt : Point α} {r : Result α} (h : pt.step m = some r)
    (hspins : pt.spins m = false) : r.next ≠ some pt := by
  cases operation h with
  | spin c hlock => cases hlock.symm.trans hspins
  | _ => simp

/-- Every operation can be done, but a resume with no pause and the end of a task. -/
lemma step_isSome (m : Queue α) {pt : Point α} (hresume : pt = .resume → m.pauseCount ≠ 0)
    (hexecute : ¬ ∃ g t, pt = .execute g t) : ∃ r, pt.step m = some r := by
  cases pt with
  | resume =>
    simp only [Point.step, Queue.resume, if_neg (hresume rfl)]
    exact ⟨_, rfl⟩
  | execute g t => exact absurd ⟨g, t, rfl⟩ hexecute
  | _ => exact ⟨_, rfl⟩

/-- A thread whose next operation is possible and no failed attempt to take the lock goes on. -/
lemma exists_advance {i : ℕ} {th : Thread Q α} {pt : Point α} (hi : s.threads[i]? = some th)
    (hnext : th.next? = some (q, pt)) (hresume : pt = .resume → (s.queue q).pauseCount ≠ 0)
    (hexecute : ¬ ∃ g t, pt = .execute g t) (hspins : pt.spins (s.queue q) = false) :
    ∃ s', step s (.advance i) = some s' ∧ s'.threads[i]? ≠ some th := by
  obtain ⟨r, hr⟩ := step_isSome (s.queue q) hresume hexecute
  refine ⟨s.put i (th.goto (r.next.map (q, ·))) q r, by simp [step, hi, hnext, hr], ?_⟩
  have hlt := (List.getElem?_eq_some_iff.mp hi).1
  have hself : (s.put i (th.goto (r.next.map (q, ·))) q r).threads[i]?
      = some (th.goto (r.next.map (q, ·))) := by
    unfold State.put
    rw [List.getElem?_append_left (by simpa using hlt), List.getElem?_set_self hlt]
  have hne : r.next.map (q, ·) ≠ some (q, pt) := by
    intro heq
    obtain ⟨n, hn, hpair⟩ := Option.map_eq_some_iff.mp heq
    obtain ⟨-, rfl⟩ := Prod.mk.inj hpair
    exact next_ne hr hspins hn
  rw [hself]
  intro heq
  obtain ⟨job, call⟩ := th
  cases call with
  | none => exact hne ((congrArg Thread.job (Option.some.inj heq)).trans hnext)
  | some c => exact hne ((congrArg Thread.call (Option.some.inj heq)).trans hnext)

omit [DecidableEq Q] in
/-- Outside the action of a task a functor is in no call, so its own operation is the next one. -/
lemma next?_of_job (hapart : s.Apart) {i : ℕ} {th : Thread Q α} {pt : Point α}
    (hi : s.threads[i]? = some th) (hjob : th.job = some (q, pt))
    (hexecute : ¬ ∃ g t, pt = .execute g t) : th.next? = some (q, pt) := by
  have hcall : th.call = none := by
    by_contra hne
    have huser := hapart.user th (List.mem_of_getElem? hi) hne
    unfold Thread.inUserCode at huser
    rw [hjob] at huser
    cases pt with
    | execute g t => exact hexecute ⟨g, t, rfl⟩
    | _ => cases huser
  unfold Thread.next?
  rw [hcall]
  exact hjob

/-- Where the lock of a queue is taken, some thread is about to make the next operation under it. -/
lemma exists_locking (h : Reachable s) (hlock : (s.queue q).pickingNextTask = true) :
    ∃ (i : ℕ) (th : Thread Q α) (c : Caller) (p : Pick α), s.threads[i]? = some th ∧
      th.next? = some (q, .pick c p) ∧ p.locks = 1 := by
  have hlocks := locks_eq h q
  rw [hlock] at hlocks
  have hsome : ¬ ∀ n ∈ s.points q, n.locks = 0 := fun hall => by
    have hzero : s.count Point.locks q = 0 := tally_eq_zero.mpr hall
    rw [hzero] at hlocks
    cases hlocks
  push Not at hsome
  obtain ⟨n, hn, hne⟩ := hsome
  obtain ⟨i, th, hi, hat⟩ := mem_points_iff.mp hn
  cases n with
  | pick c p =>
    have hone : p.locks = 1 := by
      cases p <;> first | rfl | exact absurd rfl hne
    refine ⟨i, th, c, p, hi, ?_, hone⟩
    rcases hat with hjob | hcall
    · exact next?_of_job (apart h) hi hjob (by simp)
    · unfold Thread.next?
      rw [hcall]
  | _ => exact absurd rfl hne

/-! ## All threads -/

/-- No thread goes on at a queue, failed attempts to take a spin lock aside. -/
def State.Resting (s : State Q α) : Prop :=
  ∀ i th s', s.threads[i]? = some th → step s (.advance i) = some s' → s'.threads[i]? = some th

/-- **Whoever does not go on is inside an action.** If no thread goes on and nobody resumes a queue
that is not paused, then no thread has an operation at a queue to make. -/
theorem eq_execute_of_resting (h : Reachable s) (hrest : s.Resting)
    (hresume : ∀ q, .resume ∈ s.points q → (s.queue q).pauseCount ≠ 0) {i : ℕ} {th : Thread Q α}
    {pt : Point α} (hi : s.threads[i]? = some th) (hnext : th.next? = some (q, pt)) :
    ∃ g t, pt = .execute g t := by
  by_contra hexecute
  have hmem := mem_points (List.mem_of_getElem? hi) (Thread.next?_eq hnext)
  cases hspins : pt.spins (s.queue q) with
  | false =>
    obtain ⟨s', hstep, hne⟩ :=
      exists_advance hi hnext (fun heq => hresume q (heq ▸ hmem)) hexecute hspins
    exact hne (hrest i th s' hi hstep)
  | true =>
    -- the one who holds the lock goes on
    have hlock : (s.queue q).pickingNextTask = true := by
      unfold Point.spins at hspins
      split at hspins
      · exact hspins
      · cases hspins
    obtain ⟨j, th', c, p, hj, hnext', hone⟩ := exists_locking h hlock
    have hspins' : (Point.pick c p).spins (s.queue q) = false := by
      cases p with
      | lockPicking => cases hone
      | _ => rfl
    obtain ⟨s', hstep, hne⟩ := exists_advance hj hnext' (by simp) (by simp) hspins'
    exact hne (hrest j th' s' hj hstep)

/-- A thread that has nothing to do at any queue is at no program point. -/
lemma notMem_points_of_idle (hidle : ∀ th ∈ s.threads, th.next? = none) (q : Q) (pt : Point α) :
    pt ∉ s.points q := by
  intro hmem
  obtain ⟨i, th, hi, hat⟩ := mem_points_iff.mp hmem
  have hnone := hidle th (List.mem_of_getElem? hi)
  unfold Thread.next? at hnone
  split at hnone
  next hcall => cases hnone
  next hcall =>
    rcases hat with hjob | hcall'
    · cases hjob.symm.trans hnone
    · cases hcall'.symm.trans hcall

lemma count_eq_zero_of_idle (hnone : ∀ pt, pt ∉ s.points q) (w : Point α → ℕ) :
    s.count w q = 0 :=
  tally_eq_zero.mpr fun pt hpt => absurd hpt (hnone pt)

/-- Where nobody is at a queue, what was pushed has begun or is in `m_tasks`. -/
lemma pushed_eq_of_idle (h : Reachable s) (hnone : ∀ pt, pt ∉ s.points q) :
    (s.queue q).pushed = (s.queue q).begun ++ (s.queue q).tasks := by
  have hord := inOrder h q
  have hlen := hord.length_popped
  rw [count_eq_zero_of_idle hnone, Nat.add_zero] at hlen
  rw [hord.begun_popped.eq_of_length hlen.symm]
  exact (fifo h q).symm

/-- **Nothing is left in a queue that is not paused.** -/
theorem tasks_eq_nil_of_idle (h : Reachable s) (hnone : ∀ pt, pt ∉ s.points q)
    (hpause : (s.queue q).pauseCount = 0) : (s.queue q).tasks = [] := by
  have howns := owns_eq h q
  rw [count_eq_zero_of_idle hnone] at howns
  rcases served h q with hs | hs | hs | hs
  · exact hs
  · exact absurd hpause hs
  · rw [hs.1] at howns
    cases howns
  · rw [count_eq_zero_of_idle hnone] at hs
    cases hs

/-! ## What has begun -/

/-- A step begins at most one task. -/
lemma begun_cases {a : Label Q α} (h : step s a = some s') (q : Q) :
    (s'.queue q).begun = (s.queue q).begun ∨ ∃ (i : ℕ) (th : Thread Q α) (g : ℕ) (t : QueuedTask α),
      a = .advance i ∧ s.threads[i]? = some th ∧ th.next? = some (q, .loop g t) ∧
        (s'.queue q).begun = (s.queue q).begun ++ [t] := by
  cases step_at q h with
  | elsewhere hqueue _ => exact .inl (by rw [hqueue])
  | entered op hqueue _ _ => exact .inl (by rw [hqueue])
  | finished i threw g t _ _ _ hqueue _ => exact .inl (by rw [hqueue])
  | moved i th pt r hlabel hth hnext _ hr hqueue _ =>
    rw [hqueue]
    cases log_step hr with
    | same _ hbegun => exact .inl hbegun
    | pop c t _ _ hbegun => exact .inl hbegun
    | start g t hpt _ hbegun =>
      subst hpt
      exact .inr ⟨i, th, g, t, hlabel, hth, hnext, hbegun⟩

/-- What has begun stays so. -/
lemma begun_step {a : Label Q α} (h : step s a = some s') (q : Q) :
    (s.queue q).begun <+: (s'.queue q).begun := by
  rcases begun_cases h q with heq | ⟨i, th, g, t, -, -, -, heq⟩ <;> rw [heq]
  exact List.prefix_append _ _

/-- The thread that begins a task executes it. -/
lemma getElem?_of_loop (hapart : s.Apart) {i g : ℕ} {th : Thread Q α} {t : QueuedTask α}
    (hth : s.threads[i]? = some th) (hnext : th.next? = some (q, .loop g t))
    (h : step s (.advance i) = some s') :
    s'.threads[i]? = some ⟨some (q, .execute g t), none⟩ := by
  obtain ⟨⟨job, call⟩, q', pt, r, hth', hnext', hr, rfl⟩ := step_advance h
  obtain rfl := Option.some.inj (hth.symm.trans hth')
  obtain ⟨rfl, rfl⟩ := Prod.mk.inj (Option.some.inj (hnext.symm.trans hnext'))
  obtain rfl := Option.some.inj hr
  have hlt := (List.getElem?_eq_some_iff.mp hth).1
  cases call with
  | some c =>
    obtain rfl : c = (q, .loop g t) := Option.some.inj hnext
    cases hapart.calls _ (List.mem_of_getElem? hth) q _ rfl
  | none =>
    unfold State.put
    rw [List.getElem?_append_left (by simpa using hlt), List.getElem?_set_self hlt]
    rfl

/-- A task that executes has begun. -/
theorem mem_begun_of_execute (h : Reachable s) {g : ℕ} {t : QueuedTask α}
    (hmem : .execute g t ∈ s.points q) : t ∈ (s.queue q).begun := by
  have hall : ∀ pt ∈ s.points q, ∀ g t, pt = .execute g t → t ∈ (s.queue q).begun := by
    refine h.invariant
      (I := fun s => ∀ pt ∈ s.points q, ∀ g t, pt = .execute g t → t ∈ (s.queue q).begun)
      (by simp [State.points]) fun s a s' ih _ hstep => ?_
    have hgrows := (begun_step hstep q).subset
    have hold : ∀ pt ∈ s.points q, ∀ g t, pt = .execute g t → t ∈ (s'.queue q).begun :=
      fun pt hpt g t heq => hgrows (ih pt hpt g t heq)
    refine (step_at q hstep).forall_points hold (fun op => by cases op <;> simp [Op.entry])
      (fun pt _ r hr hqueue p hp g t heq => ?_) (by simp)
    -- the only operation that leads into an action is the one that records the task
    subst heq
    obtain rfl := eq_loop_of_execute hr hp
    obtain rfl := Option.some.inj hr
    rw [hqueue]
    exact List.mem_append_right _ (List.mem_singleton_self t)
  exact hall _ hmem g t rfl

/-! ## What is pushed -/

/-- A step pushes one task at most. -/
lemma pushed_cases {a : Label Q α} (h : step s a = some s') (q : Q) :
    (s'.queue q).pushed = (s.queue q).pushed ∨
      ∃ t, (s'.queue q).pushed = (s.queue q).pushed ++ [t] := by
  cases step_at q h with
  | elsewhere hqueue _ => exact .inl (by rw [hqueue])
  | entered op hqueue _ _ => exact .inl (by rw [hqueue])
  | finished i threw g t _ _ _ hqueue _ => exact .inl (by rw [hqueue])
  | moved i th pt r _ _ _ _ hr hqueue _ =>
    rw [hqueue]
    cases operation hr with
    | push t => exact .inr ⟨t, rfl⟩
    | _ => exact .inl rfl

lemma pushed_step {a : Label Q α} (h : step s a = some s') (q : Q) :
    (s.queue q).pushed <+: (s'.queue q).pushed := by
  rcases pushed_cases h q with heq | ⟨t, heq⟩ <;> rw [heq]
  exact List.prefix_append _ _

/-- A thread that is about to push a task stays there until it has pushed it. -/
lemma push_step {a : Label Q α} (h : step s a = some s') {i : ℕ} {th : Thread Q α}
    {t : QueuedTask α} (hi : s.threads[i]? = some th) (hcall : th.call = some (q, .push t)) :
    (∃ th', s'.threads[i]? = some th' ∧ th'.call = some (q, .push t)) ∨ t ∈ (s'.queue q).pushed := by
  have hlt := (List.getElem?_eq_some_iff.mp hi).1
  -- another thread's step leaves it where it is, and its own one is the push
  have hkeep : ∀ {j : ℕ} (th₁ : Thread Q α), j ≠ i → (s.threads.set j th₁)[i]? = some th :=
    fun th₁ hne => (List.getElem?_set_ne hne).trans hi
  cases a with
  | fork =>
    obtain rfl := Option.some.inj h
    exact .inl ⟨th, (List.getElem?_append_left hlt).trans hi, hcall⟩
  | call j q' op =>
    obtain ⟨th₀, hj, hnone, -, rfl⟩ := step_call h
    refine .inl ⟨th, hkeep _ ?_, hcall⟩
    rintro rfl
    obtain rfl := Option.some.inj (hj.symm.trans hi)
    cases hnone.symm.trans hcall
  | advance j =>
    obtain ⟨th₀, q', pt, r, hj, hnext, hr, rfl⟩ := step_advance h
    by_cases hij : j = i
    · subst hij
      obtain rfl := Option.some.inj (hj.symm.trans hi)
      unfold Thread.next? at hnext
      rw [hcall] at hnext
      obtain ⟨rfl, rfl⟩ := Prod.mk.inj (Option.some.inj hnext)
      obtain rfl := Option.some.inj hr
      refine .inr ?_
      simp [State.put]
    · refine .inl ⟨th, ?_, hcall⟩
      unfold State.put
      rw [List.getElem?_append_left (by simpa using hlt)]
      exact hkeep _ hij
  | finish j threw =>
    obtain ⟨q', g, t', hj, rfl⟩ := step_finish h
    refine .inl ⟨th, hkeep _ ?_, hcall⟩
    rintro rfl
    obtain rfl := Option.some.inj (hj.symm.trans hi)
    cases hcall

/-! ## Who resumes -/

/-- Inside the decrement of `resume`. -/
def Point.resumes : Point α → ℕ
  | .resume => 1
  | _ => 0

/-- Inside `pause`. -/
def Point.isPause : Point α → ℕ
  | .pause => 1
  | _ => 0

/-- A resume takes back one pause. -/
lemma pauseCount_step {m : Queue α} {pt : Point α} {r : Result α} (h : pt.step m = some r) :
    r.queue.pauseCount + pt.resumes = m.pauseCount + pt.isPause ∧ r.weight Point.resumes = 0 := by
  cases operation h with
  | resume hcount | resumeLast hcount => simp [Point.resumes, Point.isPause, Result.weight, hcount]
  | _ => simp [Point.resumes, Point.isPause, Result.weight]

/-- How a thread's operation moves the pauses of a queue and the threads that resume it. -/
lemma pauseCount_advance {i : ℕ} {th : Thread Q α} {q' : Q} {pt : Point α}
    (hth : s.threads[i]? = some th) (hnext : th.next? = some (q', pt))
    (h : step s (.advance i) = some s') (q : Q) :
    (s'.queue q).pauseCount + s.count Point.resumes q
      = (s.queue q).pauseCount + s'.count Point.resumes q + if q' = q then pt.isPause else 0 := by
  obtain ⟨th', q₁, pt₁, r, hth', hnext', hr, rfl⟩ := step_advance h
  obtain rfl := Option.some.inj (hth.symm.trans hth')
  obtain ⟨rfl, rfl⟩ := Prod.mk.inj (Option.some.inj (hnext.symm.trans hnext'))
  have hput := count_put Point.resumes q r hth hnext
  obtain ⟨hpause, hzero⟩ := pauseCount_step hr
  by_cases hq : q' = q
  · subst hq
    have hqueue : ((s.put i (th.goto (r.next.map (q', ·))) q' r).queue q') = r.queue := by
      simp [State.put]
    rw [if_pos rfl, if_pos rfl] at hput
    rw [hqueue, if_pos rfl]
    omega
  · have hqueue : ((s.put i (th.goto (r.next.map (q', ·))) q' r).queue q) = s.queue q := by
      simp [State.put, Function.update_of_ne (Ne.symm hq)]
    rw [if_neg hq, if_neg hq] at hput
    rw [hqueue, if_neg hq]
    omega

/-- Other steps leave the pauses of the queues alone, and only a call makes a thread resume. -/
lemma pauseCount_eq {a : Label Q α} (h : step s a = some s') (hadvance : ∀ i, a ≠ .advance i)
    (q : Q) : (s'.queue q).pauseCount = (s.queue q).pauseCount := by
  cases step_at q h with
  | elsewhere hqueue _ => rw [hqueue]
  | entered op hqueue _ _ => rw [hqueue]
  | finished i threw g t _ _ _ hqueue _ => rw [hqueue]
  | moved i th pt r hlabel => exact absurd hlabel (hadvance i)

lemma count_resumes_eq {a : Label Q α} (h : step s a = some s') (hadvance : ∀ i, a ≠ .advance i)
    (hcall : ∀ i q, a ≠ .call i q .resume) (q : Q) :
    s'.count Point.resumes q = s.count Point.resumes q := by
  cases a with
  | fork =>
    obtain rfl := Option.some.inj h
    simp [count_eq_tally, Thread.weight]
  | call i q' op =>
    rw [(count_call h _ q).2]
    cases op with
    | resume => exact absurd rfl (hcall i q')
    | push | pause => simp [Op.entry, Point.resumes]
  | advance i => exact absurd rfl (hadvance i)
  | finish i threw =>
    cases step_at q h with
    | elsewhere _ hcount => exact hcount _
    | entered op hqueue hid =>
      obtain ⟨q', g, t, -, rfl⟩ := step_finish h
      exact absurd hid (Nat.lt_succ_self _).ne
    | moved j th pt r hlabel => cases hlabel
    | finished j threw' g t _ _ _ _ hcount => simpa [Point.resumes] using hcount Point.resumes

end UnifyPrototype.SerialTaskQueue
