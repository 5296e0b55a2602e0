import UnifyPrototype.SerialTaskQueue.Model

/-!
# What a step does at one queue

The invariants of `SerialTaskQueue` concern one queue at a time and count the threads at certain
program points of it. `step_at` says once what a step of the whole program can do there; the
invariants are case analyses over its four cases.
-/

namespace UnifyPrototype.SerialTaskQueue

open UnifyPrototype.Utils

variable {Q α : Type} [DecidableEq Q] {s s' : State Q α} {q : Q}

/-! ## One operation -/

omit [DecidableEq Q] in
/-- A thread is about to begin a task, or is not. -/
lemma Point.loop_or (pt : Point α) : (∃ g t, pt = .loop g t) ∨ ∀ g t, pt ≠ .loop g t := by
  cases pt with
  | loop g t => exact .inl ⟨g, t, rfl⟩
  | _ => exact .inr nofun

/-- What one operation does, branch by branch: the operation and what it leads to. -/
inductive Operation (m : Queue α) : Point α → Result α → Prop
  | push (t) : Operation m (.push t)
      ⟨{ m with tasks := m.tasks ++ [t], pushed := m.pushed ++ [t] },
        some (.pick .member .readPauseCount), none⟩
  | pause : Operation m .pause ⟨{ m with pauseCount := m.pauseCount + 1 }, none, none⟩
  | resume {n} (hcount : m.pauseCount = n + 2) :
      Operation m .resume ⟨{ m with pauseCount := n + 1 }, none, none⟩
  | resumeLast (hcount : m.pauseCount = 1) : Operation m .resume
      ⟨{ m with pauseCount := 0 }, some (.pick .member .readPauseCount), none⟩
  | paused (c) (hcount : m.pauseCount ≠ 0) :
      Operation m (.pick c .readPauseCount) ⟨m, none, none⟩
  | notPaused (c) (hcount : m.pauseCount = 0) :
      Operation m (.pick c .readPauseCount) ⟨m, some (.pick c .lockPicking), none⟩
  | spin (c) (hlock : m.pickingNextTask = true) :
      Operation m (.pick c .lockPicking) ⟨m, some (.pick c .lockPicking), none⟩
  | lock (c) (hlock : m.pickingNextTask = false) : Operation m (.pick c .lockPicking)
      ⟨{ m with pickingNextTask := true }, some (.pick c .chooseTask), none⟩
  | alreadyChosen (c) (hchosen : m.taskChosen = true) :
      Operation m (.pick c .chooseTask) ⟨m, some (.pick c (.unlockPicking none)), none⟩
  | choose (c) (hchosen : m.taskChosen = false) : Operation m (.pick c .chooseTask)
      ⟨{ m with taskChosen := true }, some (.pick c .tryPop), none⟩
  | pop (c) {t ts} (htasks : m.tasks = t :: ts) : Operation m (.pick c .tryPop)
      ⟨{ m with tasks := ts, popped := m.popped ++ [t] },
        some (.pick c (.unlockPicking (some t))), none⟩
  | empty (c) (htasks : m.tasks = []) :
      Operation m (.pick c .tryPop) ⟨m, some (.pick c .clearChosen), none⟩
  | clear (c) : Operation m (.pick c .clearChosen)
      ⟨{ m with taskChosen := false }, some (.pick c (.unlockPicking none)), none⟩
  | unlockNone (c) : Operation m (.pick c (.unlockPicking none))
      ⟨{ m with pickingNextTask := false }, none, none⟩
  | unlockSpawn (c t) : Operation m (.pick c (.unlockPicking (some t)))
      ⟨{ m with pickingNextTask := false }, some (.spawn c t), none⟩
  | unlockLoop (g t) : Operation m (.pick (.runner g) (.unlockPicking (some t)))
      ⟨{ m with pickingNextTask := false }, some (.loop g t), none⟩
  | spawn (c t) : Operation m (.spawn c t) ⟨m, none, some t⟩
  | waiting (t) : Operation m (.waiting t) ⟨m, some (.loop t.group t), none⟩
  | loop (g t) :
      Operation m (.loop g t) ⟨{ m with begun := m.begun ++ [t] }, some (.execute g t), none⟩
  | finishedTask (g) : Operation m (.finishedTask g)
      ⟨{ m with taskChosen := false }, some (.pick (.runner g) .readPauseCount), none⟩

omit [DecidableEq Q] in
/-- An operation of `pickNextTask` in its branches. -/
lemma operation_pick (m : Queue α) (c : Caller) (p : Pick α) :
    Operation m (.pick c p) ⟨(p.step m c).1, (p.step m c).2, none⟩ := by
  cases p with
  | readPauseCount =>
    simp only [Pick.step]
    split
    next hcount => exact .paused c hcount
    next hcount => exact .notPaused c (by simpa using hcount)
  | lockPicking =>
    simp only [Pick.step]
    split
    next hlock => exact .spin c hlock
    next hlock => exact .lock c (by simpa using hlock)
  | chooseTask =>
    simp only [Pick.step]
    split
    next hchosen => exact .alreadyChosen c hchosen
    next hchosen => exact .choose c (by simpa using hchosen)
  | tryPop =>
    simp only [Pick.step]
    split
    next t ts htasks => exact .pop c htasks
    next htasks => exact .empty c htasks
  | clearChosen => exact .clear c
  | unlockPicking t =>
    cases t with
    | none => cases c <;> exact .unlockNone _
    | some t =>
      cases c with
      | member => exact .unlockSpawn .member t
      | runner g =>
        simp only [Pick.step, Caller.receive]
        split
        · exact .unlockSpawn (.runner g) t
        · exact .unlockLoop g t

/-- **Inversion.** Every operation is one of these branches. -/
theorem operation {m : Queue α} {pt : Point α} {r : Result α} (h : pt.step m = some r) :
    Operation m pt r := by
  cases pt with
  | pick c p =>
    obtain rfl := Option.some.inj h
    exact operation_pick m c p
  | resume =>
    simp only [Point.step, Queue.resume] at h
    split at h
    next => cases h
    next hcount =>
      obtain rfl := Option.some.inj h
      obtain ⟨n, hn⟩ := Nat.exists_eq_succ_of_ne_zero hcount
      cases n with
      | zero => simpa [hn] using Operation.resumeLast (m := m) hn
      | succ n => simpa [hn] using Operation.resume (m := m) hn
  | execute g t => cases h
  | push t => obtain rfl := Option.some.inj h; exact .push t
  | pause => obtain rfl := Option.some.inj h; exact .pause
  | spawn c t => obtain rfl := Option.some.inj h; exact .spawn c t
  | waiting t => obtain rfl := Option.some.inj h; exact .waiting t
  | loop g t => obtain rfl := Option.some.inj h; exact .loop g t
  | finishedTask g => obtain rfl := Option.some.inj h; exact .finishedTask g

/-! ## Counting threads at program points -/

/-- The program point, if it is one of queue `q`. -/
def pointAt (q : Q) : Option (Q × Point α) → List (Point α)
  | some (q', pt) => if q' = q then [pt] else []
  | none => []

/-- The program points of a thread at queue `q`: in its functor and in the member function that
its user code called. -/
def Thread.points (th : Thread Q α) (q : Q) : List (Point α) :=
  pointAt q th.job ++ pointAt q th.call

/-- The program points of all threads at queue `q`. -/
def State.points (s : State Q α) (q : Q) : List (Point α) :=
  s.threads.flatMap (·.points q)

/-- The weight of all program points at queue `q`. -/
def State.count (s : State Q α) (w : Point α → ℕ) (q : Q) : ℕ :=
  tally w (s.points q)

/-- The weight of what an operation leads to. -/
def Result.weight (w : Point α → ℕ) (r : Result α) : ℕ :=
  r.next.elim 0 w + r.spawned.elim 0 fun t => w (.waiting t)

/-- The weight of one thread at queue `q`. -/
def Thread.weight (w : Point α → ℕ) (q : Q) (th : Thread Q α) : ℕ :=
  tally w (pointAt q th.job) + tally w (pointAt q th.call)

lemma count_eq_tally (s : State Q α) (w : Point α → ℕ) (q : Q) :
    s.count w q = tally (Thread.weight w q) s.threads := by
  simp only [State.count, State.points, tally_flatMap, Thread.points, tally_append]
  rfl

@[simp] lemma pointAt_none (q : Q) : (pointAt q none : List (Point α)) = [] := rfl

@[simp] lemma pointAt_self (q : Q) (pt : Point α) : pointAt q (some (q, pt)) = [pt] := by
  simp [pointAt]

lemma pointAt_of_ne {q q' : Q} (h : q' ≠ q) (pt : Point α) : pointAt q (some (q', pt)) = [] := by
  simp [pointAt, h]

lemma tally_pointAt_map (w : Point α → ℕ) (q : Q) (n : Option (Point α)) :
    tally w (pointAt q (n.map (q, ·))) = n.elim 0 w := by
  cases n <;> simp

lemma pointAt_map_of_ne {q q' : Q} (h : q' ≠ q) (n : Option (Point α)) :
    pointAt q (n.map (q', ·)) = [] := by
  cases n <;> simp [pointAt, h]

/-- Moving on exchanges the weight of the operation for the weight of where the thread is next. -/
lemma Thread.weight_goto (w : Point α → ℕ) (q : Q) {th : Thread Q α} {c : Q × Point α}
    (h : th.next? = some c) (n : Option (Q × Point α)) :
    (th.goto n).weight w q + tally w (pointAt q (some c))
      = th.weight w q + tally w (pointAt q n) := by
  rcases th with ⟨job, call⟩
  cases call with
  | none =>
    simp only [Thread.next?] at h
    subst h
    simp only [Thread.goto, Thread.weight]
    omega
  | some c' =>
    obtain rfl : c' = c := by simpa [Thread.next?] using h
    simp only [Thread.goto, Thread.weight]
    omega

/-- A thread's point at the queue is one of the points there. -/
lemma mem_points {th : Thread Q α} {pt : Point α} (hth : th ∈ s.threads)
    (hpt : th.job = some (q, pt) ∨ th.call = some (q, pt)) : pt ∈ s.points q := by
  refine List.mem_flatMap.mpr ⟨th, hth, ?_⟩
  rcases hpt with h | h <;> simp [Thread.points, h]

omit [DecidableEq Q] in
/-- The next operation is that of the call, and of the job if there is none. -/
lemma Thread.next?_eq {th : Thread Q α} {c : Q × Point α} (h : th.next? = some c) :
    th.job = some c ∨ th.call = some c := by
  rcases th with ⟨job, _ | c'⟩
  · exact .inl h
  · exact .inr h

/-- A point that is there is counted. -/
lemma le_count (w : Point α → ℕ) {pt : Point α} (h : pt ∈ s.points q) : w pt ≤ s.count w q :=
  le_tally_of_mem w h

/-! ## The state after each kind of step -/

/-- What a call asks of its thread. -/
lemma step_call {i : ℕ} {op : Op α} (h : step s (.call i q op) = some s') :
    ∃ th, s.threads[i]? = some th ∧ th.call = none ∧ th.inUserCode = true ∧
      s' = { s with
        threads := s.threads.set i { th with call := some (q, op.entry s.nextId) }
        nextId := s.nextId + 1 } := by
  simp only [step] at h
  split at h
  next th hth =>
    split at h
    next hcall => exact ⟨th, hth, hcall.1, hcall.2, (Option.some.inj h).symm⟩
    next => cases h
  next => cases h

/-- What an operation does to the state. -/
lemma step_advance {i : ℕ} (h : step s (.advance i) = some s') :
    ∃ th q pt r, s.threads[i]? = some th ∧ th.next? = some (q, pt) ∧
      pt.step (s.queue q) = some r ∧ s' = s.put i (th.goto (r.next.map (q, ·))) q r := by
  simp only [step] at h
  split at h
  next th hth =>
    split at h
    next q pt hnext =>
      obtain ⟨r, hr, rfl⟩ := Option.map_eq_some_iff.mp h
      exact ⟨th, q, pt, r, hth, hnext, hr, rfl⟩
    next => cases h
  next => cases h

/-- The task of a runner ends. -/
lemma step_finish {i : ℕ} {threw : Bool} (h : step s (.finish i threw) = some s') :
    ∃ q g t, s.threads[i]? = some ⟨some (q, .execute g t), none⟩ ∧
      s' = { s with threads := s.threads.set i ⟨some (q, .finishedTask g), none⟩ } := by
  simp only [step] at h
  split at h
  next q g t hth =>
    refine ⟨q, g, t, hth, ?_⟩
    cases threw <;> exact (Option.some.inj h).symm
  next => cases h

/-! ## The four cases -/

/-- What a step with the label `a` does at queue `q`. -/
inductive StepAt (q : Q) (s : State Q α) (a : Label Q α) (s' : State Q α) : Prop
  /-- Nothing: the step is local to a thread, or at another queue. -/
  | elsewhere (hqueue : s'.queue q = s.queue q) (hcount : ∀ w, s'.count w q = s.count w q)
  /-- User code calls a member function of `q`. -/
  | entered (op : Op α) (hqueue : s'.queue q = s.queue q) (hid : s'.nextId = s.nextId + 1)
      (hcount : ∀ w, s'.count w q = s.count w q + w (op.entry s.nextId))
  /-- A thread makes its next operation, which is one at `q`. -/
  | moved (i : ℕ) (th : Thread Q α) (pt : Point α) (r : Result α) (hlabel : a = .advance i)
      (hth : s.threads[i]? = some th) (hnext : th.next? = some (q, pt))
      (hmem : pt ∈ s.points q) (hstep : pt.step (s.queue q) = some r)
      (hqueue : s'.queue q = r.queue)
      (hcount : ∀ w, s'.count w q + w pt = s.count w q + r.weight w)
  /-- The action of a task of `q` ends. -/
  | finished (i : ℕ) (threw : Bool) (g : ℕ) (t : QueuedTask α) (hlabel : a = .finish i threw)
      (hth : s.threads[i]? = some ⟨some (q, .execute g t), none⟩)
      (hmem : .execute g t ∈ s.points q) (hqueue : s'.queue q = s.queue q)
      (hcount : ∀ w, s'.count w q + w (.execute g t) = s.count w q + w (.finishedTask g))

/-- The count after one thread has been replaced. -/
lemma count_set (w : Point α → ℕ) (q : Q) {i : ℕ} {th : Thread Q α} (th' : Thread Q α)
    (h : s.threads[i]? = some th) :
    tally (Thread.weight w q) (s.threads.set i th') + th.weight w q
      = s.count w q + th'.weight w q := by
  rw [count_eq_tally]
  exact tally_set _ _ h

/-- The functors of the spawned tasks, counted at the queue they were spawned from. -/
lemma tally_spawned (w : Point α → ℕ) (q q' : Q) (r : Result α) :
    tally (Thread.weight w q)
        (r.spawned.toList.map fun t => (⟨some (q', .waiting t), none⟩ : Thread Q α))
      = if q' = q then r.spawned.elim 0 fun t => w (.waiting t) else 0 := by
  cases r.spawned with
  | none => simp
  | some t => by_cases hq : q' = q <;> simp [Thread.weight, pointAt, hq]

/-- The counts after an operation at queue `q'`. -/
lemma count_put (w : Point α → ℕ) (q : Q) {i : ℕ} {th : Thread Q α} {q' : Q} {pt : Point α}
    (r : Result α) (hth : s.threads[i]? = some th) (hnext : th.next? = some (q', pt)) :
    (s.put i (th.goto (r.next.map (q', ·))) q' r).count w q + (if q' = q then w pt else 0)
      = s.count w q + if q' = q then r.weight w else 0 := by
  have hset := count_set w q (th.goto (r.next.map (q', ·))) hth
  have hgoto := th.weight_goto w q hnext (r.next.map (q', ·))
  have hcount : (s.put i (th.goto (r.next.map (q', ·))) q' r).count w q
      = tally (Thread.weight w q) (s.threads.set i (th.goto (r.next.map (q', ·))))
        + if q' = q then r.spawned.elim 0 fun t => w (.waiting t) else 0 := by
    simp only [count_eq_tally, State.put, tally_append, tally_spawned]
  by_cases hq : q' = q
  · subst hq
    simp only [pointAt_self, tally_cons, tally_nil, tally_pointAt_map] at hgoto
    rw [hcount, if_pos rfl, if_pos rfl, if_pos rfl, Result.weight]
    omega
  · simp only [pointAt_of_ne hq, pointAt_map_of_ne hq, tally_nil] at hgoto
    rw [hcount, if_neg hq, if_neg hq, if_neg hq]
    omega

/-- **Inversion.** Every step of the program does one of the four things at queue `q`. -/
theorem step_at (q : Q) {a : Label Q α} (h : step s a = some s') : StepAt q s a s' := by
  cases a with
  | fork =>
    obtain rfl : _ = s' := by simpa [step] using h
    refine .elsewhere rfl fun w => ?_
    simp [count_eq_tally, Thread.weight]
  | call i q' op =>
    obtain ⟨th, hth, hcall, -, rfl⟩ := step_call h
    have hset := fun w => count_set w q { th with call := some (q', op.entry s.nextId) } hth
    simp only [Thread.weight, hcall, pointAt_none, tally_nil] at hset
    by_cases hq : q' = q
    · subst hq
      refine .entered op rfl rfl fun w => ?_
      have := hset w
      simp only [pointAt_self, tally_cons, tally_nil] at this
      simp only [count_eq_tally] at this ⊢
      omega
    · refine .elsewhere rfl fun w => ?_
      have := hset w
      simp only [pointAt_of_ne hq, tally_nil] at this
      simp only [count_eq_tally] at this ⊢
      omega
  | advance i =>
    obtain ⟨th, q', pt, r, hth, hnext, hr, rfl⟩ := step_advance h
    -- what is at `q` changes only if the thread moves there
    have hput := fun w => count_put w q r hth hnext
    by_cases hq : q' = q
    · subst hq
      have hmem := mem_points (List.mem_of_getElem? hth) (Thread.next?_eq hnext)
      refine .moved i th pt r rfl hth hnext hmem hr ?_ fun w => ?_
      · simp [State.put]
      · simpa using hput w
    · refine .elsewhere ?_ fun w => ?_
      · simp [State.put, Function.update_of_ne (Ne.symm hq)]
      · simpa [hq] using hput w
  | finish i threw =>
    obtain ⟨q', g, t, hth, rfl⟩ := step_finish h
    have hset := fun w => count_set w q ⟨some (q', .finishedTask g), none⟩ hth
    simp only [Thread.weight, pointAt_none, tally_nil] at hset
    by_cases hq : q' = q
    · subst hq
      have hmem : Point.execute g t ∈ s.points q' :=
        mem_points (List.mem_of_getElem? hth) (.inl rfl)
      refine .finished i threw g t rfl hth hmem rfl fun w => ?_
      have := hset w
      simp only [pointAt_self, tally_cons, tally_nil] at this
      simp only [count_eq_tally] at this ⊢
      omega
    · refine .elsewhere rfl fun w => ?_
      have := hset w
      simp only [pointAt_of_ne hq, tally_nil] at this
      simp only [count_eq_tally] at this ⊢
      omega

/-- Object identities are only ever used up. -/
lemma nextId_le {a : Label Q α} (h : step s a = some s') : s.nextId ≤ s'.nextId := by
  cases a with
  | fork => obtain rfl := Option.some.inj h; exact le_rfl
  | call i q op => obtain ⟨th, -, -, -, rfl⟩ := step_call h; exact Nat.le_succ _
  | advance i => obtain ⟨th, q, pt, r, -, -, -, rfl⟩ := step_advance h; exact le_rfl
  | finish i threw => obtain ⟨q, g, t, -, rfl⟩ := step_finish h; exact le_rfl

/-- Threads stay. -/
lemma length_le {a : Label Q α} (h : step s a = some s') :
    s.threads.length ≤ s'.threads.length := by
  cases a with
  | fork => obtain rfl := Option.some.inj h; simp
  | call i q op => obtain ⟨th, -, -, -, rfl⟩ := step_call h; simp
  | advance i => obtain ⟨th, q, pt, r, -, -, -, rfl⟩ := step_advance h; simp [State.put]
  | finish i threw => obtain ⟨q, g, t, -, rfl⟩ := step_finish h; simp

/-! ## Counts of several weights -/

lemma count_add (w v : Point α → ℕ) (s : State Q α) (q : Q) :
    s.count (fun pt => w pt + v pt) q = s.count w q + s.count v q :=
  tally_add w v _

lemma count_mono {w v : Point α → ℕ} (h : ∀ pt, w pt ≤ v pt) (s : State Q α) (q : Q) :
    s.count w q ≤ s.count v q :=
  tally_le_tally fun pt _ => h pt

/-- If `w` and `v` together never weigh more than `u`, a point that `w` counts and a bound of one
on the count of `u` leave nothing for `v`. -/
lemma count_eq_zero {w v u : Point α → ℕ} (h : ∀ pt, w pt + v pt ≤ u pt) (hu : s.count u q ≤ 1)
    (pt : Point α) (hpt : w pt = 1) (hmem : pt ∈ s.points q) : s.count v q = 0 := by
  have hsum := count_mono h s q
  have hle := le_count w hmem
  rw [count_add] at hsum
  omega

/-- The program points that an operation leads to. -/
def Result.points (r : Result α) : List (Point α) :=
  r.next.toList ++ r.spawned.toList.map .waiting

lemma Result.weight_eq_tally (w : Point α → ℕ) (r : Result α) : r.weight w = tally w r.points := by
  rcases r with ⟨m, _ | n, _ | t⟩ <;> simp [Result.weight, Result.points]

/-- What holds of all program points of a queue and of the new ones, holds of all program points
after the step. -/
lemma forall_points_of_count {P : Point α → Prop} (new : List (Point α))
    (hs : ∀ p ∈ s.points q, P p) (hnew : ∀ p ∈ new, P p)
    (hc : ∀ w, s'.count w q ≤ s.count w q + tally w new) : ∀ p ∈ s'.points q, P p := by
  classical
  have hzero : s.count (fun p => if P p then 0 else 1) q = 0 :=
    tally_eq_zero.mpr fun p hp => if_pos (hs p hp)
  have hzero' : tally (fun p => if P p then 0 else 1) new = 0 :=
    tally_eq_zero.mpr fun p hp => if_pos (hnew p hp)
  have hall : s'.count (fun p => if P p then 0 else 1) q = 0 := by
    have := hc fun p => if P p then 0 else 1
    omega
  intro p hp
  by_contra hneg
  have := tally_eq_zero.mp hall p hp
  simp [hneg] at this

/-- A count grows by no more than what the operation leads to. -/
lemma count_le_of_moved {pt : Point α} {r : Result α}
    (hc : ∀ w, s'.count w q + w pt = s.count w q + r.weight w) (w : Point α → ℕ) :
    s'.count w q ≤ s.count w q + tally w r.points := by
  have := hc w
  rw [Result.weight_eq_tally] at this
  omega

/-- The program points after a step are among those before it and the ones it led to. -/
lemma StepAt.forall_points {P : Point α → Prop} {a : Label Q α} (h : StepAt q s a s')
    (hs : ∀ p ∈ s.points q, P p) (hentry : ∀ op : Op α, P (op.entry s.nextId))
    (hmoved : ∀ pt ∈ s.points q, ∀ r, pt.step (s.queue q) = some r → s'.queue q = r.queue →
      ∀ p ∈ r.points, P p)
    (hfinished : ∀ g t, .execute g t ∈ s.points q → P (.finishedTask g)) :
    ∀ p ∈ s'.points q, P p := by
  cases h with
  | elsewhere hq hc =>
    exact forall_points_of_count [] hs (by simp) fun w => by simp [hc]
  | entered op hq _ hc =>
    exact forall_points_of_count [op.entry s.nextId] hs (by simpa using hentry op)
      fun w => by simp [hc]
  | moved i th pt r _ _ _ hmem hr hq hc =>
    exact forall_points_of_count _ hs (hmoved pt hmem r hr hq) (count_le_of_moved hc)
  | finished i threw g t _ _ hmem hq hc =>
    refine forall_points_of_count [.finishedTask g] hs
      (by simpa using hfinished g t hmem) fun w => ?_
    have := hc w
    simp only [tally_cons, tally_nil]
    omega

end UnifyPrototype.SerialTaskQueue
