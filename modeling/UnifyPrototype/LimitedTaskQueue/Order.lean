import UnifyPrototype.LimitedTaskQueue.Claims

/-!
# The order of the exchanges

A call that has returned has put a task into every queue. The queues are FIFOs, and a queue begins no
task before the exchange of the one before it is decided. So whichever queue is the first to come to a
later call, it has had the earlier one.
-/

namespace UnifyPrototype.LimitedTaskQueue

open UnifyPrototype.Utils
open SerialTaskQueue (QueuedTask Point Thread Result)

variable {k : ℕ} {s s' : State k} {a : Label}

/-! ## A task that has begun is decided -/

/-- What was claimed stays claimed, in the same order. -/
lemma claimed_step (h : Reachable s) (hstep : step s a = some s') : s.claimed <+: s'.claimed := by
  cases action_step h hstep with
  | same _ hclaimed => rw [hclaimed]
  | ends m _ hclaimed => rw [hclaimed]
  | claims i c _ _ _ hclaimed =>
    rw [hclaimed]
    exact List.prefix_append _ _

/-- An exchange stays to come until the action is claimed. -/
lemma exchange_step (h : Reachable s) (hstep : step s a = some s') {i : ℕ} {c : Closure k}
    (hbody : (s.frame i).body = some (.exchange c)) :
    c.setToRun ∈ s'.claimed ∨ (s'.frame i).body = some (.exchange c) := by
  have hupdate : ∀ {j : ℕ} {f : Frame k}, (j = i → f.body = some (.exchange c)) →
      (Function.update s.frame j f i).body = some (.exchange c) := by
    intro j f hf
    by_cases hij : i = j
    · subst hij
      rw [Function.update_self]
      exact hf rfl
    · rw [Function.update_of_ne hij]
      exact hbody
  -- a step of this thread's body is the exchange, whichever way it goes
  have hexchange : ∀ {j : ℕ} {x : Body k}, s.frame j = ⟨some x, none⟩ → j = i → .exchange c = x := by
    rintro j x hx rfl
    rw [hx] at hbody
    exact (Option.some.inj hbody).symm
  cases steps hstep with
  | fork | copy | resumers | release | finish => exact .inr hbody
  | enter | pushes | returns => exact .inr (hupdate fun hij => hij ▸ hbody)
  | @fails j c' hframe hset =>
    by_cases hij : j = i
    · cases hexchange hframe hij
      exact .inl (((claims h).set _).mp hset)
    · exact .inr (hupdate fun heq => absurd heq hij)
  | @claims j c' hframe =>
    by_cases hij : j = i
    · cases hexchange hframe hij
      exact .inl (List.mem_append_right _ (List.mem_singleton_self _))
    · exact .inr (hupdate fun heq => absurd heq hij)
  | pauses hframe => exact .inr (hupdate fun hij => nomatch hexchange hframe hij)
  | actionEnds hframe => exact .inr (hupdate fun hij => nomatch hexchange hframe hij)
  | @advance j th q pt b hth hnext =>
    refine .inr (hupdate ?_)
    rintro rfl
    rcases pt.loop_or with ⟨g, t, rfl⟩ | hloop
    · rw [frame_of_loop h hth hnext] at hbody
      cases hbody
    · rw [after_of_not_loop hloop]
      exact hbody

/-- The task's lambda is executed in queue `q` and has its exchange still to come. -/
def State.undecided (s : State k) (q : Fin k) (t : QueuedTask (Closure k)) : Prop :=
  ∃ i th g c, s.base.threads[i]? = some th ∧ th.job = some (q, .execute g t) ∧
    (s.frame i).body = some (.exchange c)

/-- A task that is undecided stays so until its flag is claimed. -/
lemma undecided_step (h : Reachable s) (hstep : step s a = some s') {q : Fin k}
    {t : QueuedTask (Closure k)} (ht : s.undecided q t) :
    t.action.setToRun ∈ s'.claimed ∨ s'.undecided q t := by
  obtain ⟨i, th, g, c, hth, hjob, hbody⟩ := ht
  have hne : s.frame i ≠ {} := by
    intro hempty
    rw [hempty] at hbody
    cases hbody
  have hc : c.setToRun = t.action.setToRun := by
    obtain ⟨th', q', g', t', hth', hjob', heq⟩ := (fits h).body i _ hbody
    obtain rfl := Option.some.inj (hth.symm.trans hth')
    cases hjob.symm.trans hjob'
    exact heq
  rcases exchange_step h hstep hbody with hclaimed | hbody'
  · exact .inl (hc ▸ hclaimed)
  · obtain ⟨th', hth', hsame⟩ := job_step h hstep hne hth
    exact .inr ⟨i, th', g, c, hth', hsame.trans hjob, hbody'⟩

/-- **A task that has begun is decided, unless its lambda is before the exchange.** -/
theorem claimed_of_begun (h : Reachable s) (q : Fin k) :
    ∀ t ∈ (s.base.queue q).begun, t.action.setToRun ∈ s.claimed ∨ s.undecided q t := by
  refine h.invariant_of (J := Reachable)
    (I := fun s => ∀ t ∈ (s.base.queue q).begun, t.action.setToRun ∈ s.claimed ∨ s.undecided q t)
    id nofun fun s a s' hs ih _ hstep => ?_
  have hold : ∀ t ∈ (s.base.queue q).begun,
      t.action.setToRun ∈ s'.claimed ∨ s'.undecided q t := by
    intro t ht
    rcases ih t ht with hclaimed | hundecided
    · exact .inl ((claimed_step hs hstep).subset hclaimed)
    · exact undecided_step hs hstep hundecided
  rcases step_base hstep with heq | ⟨b, hb, -, hadvance⟩
  · rw [heq]
    exact hold
  rcases SerialTaskQueue.begun_cases hb q with heq | ⟨i, th, g, t, rfl, hth, hnext, heq⟩ <;>
    rw [heq]
  · exact hold
  · intro t' ht'
    rcases List.mem_append.mp ht' with hmem | hmem
    · exact hold t' hmem
    · obtain rfl := List.mem_singleton.mp hmem
      have hapart := SerialTaskQueue.apart (reachable_base hs)
      have hth' := SerialTaskQueue.getElem?_of_loop hapart hth hnext hb
      obtain rfl := hadvance i rfl
      refine .inr ⟨i, _, g, t'.action, hth', rfl, ?_⟩
      rw [(step_advance hstep hth hnext).1, Function.update_self]
      rfl

/-! ## What a call puts into the queues -/

/-- The task of the call for the queue `q` is still to come, or is about to be pushed, or was. -/
def Call.delivers (b : SerialTaskQueue.State (Fin k) (Closure k)) (i : ℕ) (c : Call k) (q : Fin k) :
    Prop :=
  q ∈ c.queues ∨
    (∃ th t, b.threads[i]? = some th ∧ th.call = some (q, .push t) ∧
      t.action.setToRun = c.setToRun) ∨
    ∃ t ∈ (b.queue q).pushed, t.action.setToRun = c.setToRun

/-- Every call comes to every queue, and none is known to a queue before it has begun. -/
structure State.Announced (s : State k) : Prop where
  known : ∀ n, s.nextAction ≤ n → ∀ q,
    s.base.announced (fun t => if t.action.setToRun = n then 1 else 0) q = 0
  calls : ∀ i c, (s.frame i).call = some c → c.setToRun < s.nextAction ∧ ∀ q, c.delivers s.base i q
  returned : ∀ n ∈ s.returned, ∀ q, ∃ t ∈ (s.base.queue q).pushed, t.action.setToRun = n
  entered : ∀ n, n < s.nextAction → n ∈ s.returned ∨ ∃ i c, (s.frame i).call = some c ∧
    c.setToRun = n

/-- A call goes on with its deliveries while the queues move. -/
lemma Call.delivers.step {b b' : SerialTaskQueue.State (Fin k) (Closure k)} {i : ℕ} {c : Call k}
    {q : Fin k} (h : c.delivers b i q) {l : SerialTaskQueue.Label (Fin k) (Closure k)}
    (hb : SerialTaskQueue.step b l = some b') : c.delivers b' i q := by
  have hgrows := (SerialTaskQueue.pushed_step hb q).subset
  rcases h with hmem | ⟨th, t, hth, hcall, ht⟩ | ⟨t, hmem, ht⟩
  · exact .inl hmem
  · rcases SerialTaskQueue.push_step hb hth hcall with ⟨th', hth', hcall'⟩ | hpushed
    · exact .inr (.inl ⟨th', t, hth', hcall', ht⟩)
    · exact .inr (.inr ⟨t, hpushed, ht⟩)
  · exact .inr (.inr ⟨t, hgrows hmem, ht⟩)

/-- The queues step, and nothing is pushed that was not known. -/
lemma State.Announced.step_base (h : s.Announced) {b : SerialTaskQueue.State (Fin k) (Closure k)}
    {l : SerialTaskQueue.Label (Fin k) (Closure k)} (hb : SerialTaskQueue.step s.base l = some b)
    (hpush : ∀ i q g c, l = .call i q (.push g c) → c.setToRun < s.nextAction) :
    State.Announced { s with base := b } := by
  refine ⟨fun n hn q => ?_, fun i c hc => ?_, fun n hn q => ?_, h.entered⟩
  · have hzero := h.known n hn q
    by_cases hcall : ∃ i q op, l = .call i q op
    · obtain ⟨i, q', op, rfl⟩ := hcall
      rw [SerialTaskQueue.announced_call hb, hzero]
      cases op with
      | push g c =>
        have hne : c.setToRun ≠ n := ((hpush i q' g c rfl).trans_le hn).ne
        simp [SerialTaskQueue.Op.entry, SerialTaskQueue.Point.pushing, hne]
      | pause | resume => simp [SerialTaskQueue.Op.entry, SerialTaskQueue.Point.pushing]
    · rw [SerialTaskQueue.announced_step hb fun i q op heq => hcall ⟨i, q, op, heq⟩]
      exact hzero
  · obtain ⟨hlt, hall⟩ := h.calls i c hc
    exact ⟨hlt, fun q => (hall q).step hb⟩
  · obtain ⟨t, ht, heq⟩ := h.returned n hn q
    exact ⟨t, (SerialTaskQueue.pushed_step hb q).subset ht, heq⟩

/-- One frame changes, and its call stays. -/
lemma State.Announced.update (h : s.Announced) {i : ℕ} {f : Frame k}
    (hf : f.call = (s.frame i).call) :
    State.Announced { s with frame := Function.update s.frame i f } := by
  have hcall : ∀ j, (Function.update s.frame i f j).call = (s.frame j).call := by
    intro j
    by_cases hj : j = i
    · subst hj
      rw [Function.update_self, hf]
    · rw [Function.update_of_ne hj]
  refine ⟨h.known, fun j c hc => ?_, h.returned, fun n hn => ?_⟩
  · exact h.calls j c ((hcall j).symm.trans hc)
  · rcases h.entered n hn with hret | ⟨j, c, hc, heq⟩
    · exact .inl hret
    · exact .inr ⟨j, c, (hcall j).trans hc, heq⟩

lemma closure_setToRun (c : Call k) (q : Fin k) : (c.closure q).setToRun = c.setToRun := by
  unfold Call.closure
  split <;> rfl

/-- A call begins. -/
lemma State.Announced.enter (h : s.Announced) {i : ℕ} {c : Call k} (hnone : (s.frame i).call = none)
    (hc : c.setToRun = s.nextAction) (hqueues : c.queues = List.finRange k) :
    (s.enter i c).Announced := by
  refine ⟨fun n hn q => h.known n (Nat.le_of_succ_le hn) q, fun j c' hc' => ?_, h.returned,
    fun n hn => ?_⟩
  · by_cases hj : j = i
    · subst hj
      simp only [State.enter, Function.update_self] at hc'
      obtain rfl := Option.some.inj hc'
      refine ⟨hc ▸ Nat.lt_succ_self _, fun q => .inl ?_⟩
      rw [hqueues]
      exact List.mem_finRange q
    · simp only [State.enter, Function.update_of_ne hj] at hc'
      obtain ⟨hlt, hall⟩ := h.calls j c' hc'
      exact ⟨Nat.lt_succ_of_lt hlt, hall⟩
  · rcases Nat.lt_succ_iff_lt_or_eq.mp hn with hlt | rfl
    · rcases h.entered n hlt with hret | ⟨j, c', hc', heq⟩
      · exact .inl hret
      · have hj : j ≠ i := by
          rintro rfl
          cases hnone.symm.trans hc'
        refine .inr ⟨j, c', ?_, heq⟩
        simp only [State.enter, Function.update_of_ne hj]
        exact hc'
    · refine .inr ⟨i, c, ?_, hc⟩
      simp only [State.enter, Function.update_self]

/-- A call pushes the next task. -/
lemma State.Announced.pushes (h : s.Announced) {i : ℕ} {c : Call k} {q : Fin k}
    {queues : List (Fin k)} {b : SerialTaskQueue.State (Fin k) (Closure k)}
    (hcall : (s.frame i).call = some c) (hqueues : c.queues = q :: queues)
    (hb : SerialTaskQueue.step s.base (.call i q (.push c.group (c.closure q))) = some b) :
    State.Announced { s with
      base := b
      frame := Function.update s.frame i
        { s.frame i with call := some { c with queues := queues } } } := by
  have hlt := (h.calls i c hcall).1
  have hbase := h.step_base hb fun _ _ _ c' heq => by
    cases heq
    rwa [closure_setToRun]
  obtain ⟨th, hth, -, -, rfl⟩ := SerialTaskQueue.step_call hb
  refine ⟨hbase.known, fun j c' hc' => ?_, hbase.returned, fun n hn => ?_⟩
  · by_cases hj : j = i
    · subst hj
      simp only [Function.update_self] at hc'
      obtain rfl := Option.some.inj hc'
      refine ⟨hlt, fun q' => ?_⟩
      rcases (hbase.calls j c hcall).2 q' with hmem | hrest
      · rw [hqueues] at hmem
        rcases List.mem_cons.mp hmem with rfl | hmem
        · -- the task is in the hands of the thread
          have hself := List.getElem?_set_self
            (a := { th with call := some (q', .push ⟨s.base.nextId, c.group, c.closure q'⟩) })
            (List.getElem?_eq_some_iff.mp hth).1
          exact .inr (.inl ⟨_, _, hself, rfl, closure_setToRun c q'⟩)
        · exact .inl hmem
      · exact .inr hrest
    · simp only [Function.update_of_ne hj] at hc'
      exact hbase.calls j c' hc'
  · rcases h.entered n hn with hret | ⟨j, c', hc', heq⟩
    · exact .inl hret
    · by_cases hj : j = i
      · subst hj
        obtain rfl := Option.some.inj (hcall.symm.trans hc')
        exact .inr ⟨j, { c with queues := queues }, by simp only [Function.update_self], heq⟩
      · exact .inr ⟨j, c', by simpa only [Function.update_of_ne hj] using hc', heq⟩

/-- A call returns: its tasks are in all queues. -/
lemma State.Announced.returns (h : s.Announced) {i : ℕ} {th : Thread (Fin k) (Closure k)}
    {c : Call k} (hth : s.base.threads[i]? = some th) (hnone : th.call = none)
    (hcall : (s.frame i).call = some c) (hqueues : c.queues = []) :
    State.Announced { s with
      frame := Function.update s.frame i { s.frame i with call := none }
      returned := s.returned ++ [c.setToRun] } := by
  refine ⟨h.known, fun j c' hc' => ?_, fun n hn q => ?_, fun n hn => ?_⟩
  · by_cases hj : j = i
    · subst hj
      simp only [Function.update_self] at hc'
      cases hc'
    · simp only [Function.update_of_ne hj] at hc'
      exact h.calls j c' hc'
  · rcases List.mem_append.mp hn with hold | hnew
    · exact h.returned n hold q
    · obtain rfl := List.mem_singleton.mp hnew
      rcases (h.calls i c hcall).2 q with hmem | ⟨th', t, hth', hcall', -⟩ | hpushed
      · rw [hqueues] at hmem
        cases hmem
      · obtain rfl := Option.some.inj (hth.symm.trans hth')
        cases hnone.symm.trans hcall'
      · exact hpushed
  · rcases h.entered n hn with hret | ⟨j, c', hc', heq⟩
    · exact .inl (List.mem_append_left _ hret)
    · by_cases hj : j = i
      · subst hj
        obtain rfl := Option.some.inj (hcall.symm.trans hc')
        exact .inl (List.mem_append_right _ (by simp [heq]))
      · exact .inr ⟨j, c', by simpa only [Function.update_of_ne hj] using hc', heq⟩

/-- In every reachable state the calls have come to the queues, or will. -/
theorem announced (h : Reachable s) : s.Announced := by
  refine h.invariant_of (J := Reachable) (I := State.Announced) id
    ⟨fun _ _ _ => rfl, nofun, nofun, nofun⟩ fun s a s' hs ih _ hstep => ?_
  have hnone : ∀ {i : ℕ} {x : Body k}, s.frame i = ⟨some x, none⟩ → none = (s.frame i).call :=
    fun hframe => by rw [hframe]
  cases steps hstep with
  | fork hb | copy _ hb | finish _ hb => exact ih.step_base hb nofun
  | release _ hb =>
    have hbase := ih.step_base hb nofun
    exact ⟨hbase.known, hbase.calls, hbase.returned, hbase.entered⟩
  | resumers => exact ⟨ih.known, ih.calls, ih.returned, ih.entered⟩
  | enter _ _ _ huser hc hqueues => exact ih.enter (inUserCode_cases huser).2.1 hc hqueues
  | pushes hcall hqueues hb => exact ih.pushes hcall hqueues hb
  | returns hth hnone hcall hqueues => exact ih.returns hth hnone hcall hqueues
  | fails hframe => exact ih.update (hnone hframe)
  | @claims i c hframe =>
    have hupdate := ih.update (f := ⟨some c.afterExchange, none⟩) (hnone hframe)
    exact ⟨hupdate.known, hupdate.calls, hupdate.returned, hupdate.entered⟩
  | actionEnds hframe =>
    have hupdate := ih.update (f := {}) (hnone hframe)
    exact ⟨hupdate.known, hupdate.calls, hupdate.returned, hupdate.entered⟩
  | pauses hframe hb => exact (ih.step_base hb nofun).update (hnone hframe)
  | @advance i th q pt b hth hnext hb =>
    have hafter : ((s.frame i).after pt).call = (s.frame i).call := by
      rcases pt.loop_or with ⟨g, t, rfl⟩ | hloop
      · rw [frame_of_loop hs hth hnext]
        rfl
      · rw [after_of_not_loop hloop]
    have hupdate := (ih.step_base hb nofun).update hafter
    exact ⟨hupdate.known, hupdate.calls, hupdate.returned, hupdate.entered⟩

/-! ## The first come is the first to be claimed -/

/-- In the record of a queue, a task of the call `n` comes before all of the call `m`. -/
def Before (n m : ℕ) (l : List (QueuedTask (Closure k))) : Prop :=
  ∃ front back, l = front ++ back ∧ (∃ t ∈ front, t.action.setToRun = n) ∧
    ∀ t ∈ front, t.action.setToRun ≠ m

lemma Before.of_grows {n m : ℕ} {l l' : List (QueuedTask (Closure k))} (h : Before n m l)
    (hgrows : l <+: l') : Before n m l' := by
  obtain ⟨front, back, rfl, hn, hm⟩ := h
  obtain ⟨rest, rfl⟩ := hgrows
  exact ⟨front, back ++ rest, List.append_assoc _ _ _, hn, hm⟩

/-- A call that has not begun has no task in any queue. -/
lemma ne_of_pushed (h : Reachable s) {n : ℕ} (hn : s.nextAction ≤ n) {q : Fin k}
    {t : QueuedTask (Closure k)} (ht : t ∈ (s.base.queue q).pushed) : t.action.setToRun ≠ n := by
  intro heq
  have hzero := (announced h).known n hn q
  unfold SerialTaskQueue.State.announced at hzero
  have hle := le_tally_of_mem
    (fun t : QueuedTask (Closure k) => if t.action.setToRun = n then 1 else 0) ht
  simp only [if_pos heq] at hle
  omega

/-- The lambda that is before its exchange belongs to a task that its queue has begun. -/
lemma begun_of_exchange (h : Reachable s) {i : ℕ} {c : Closure k}
    (hframe : s.frame i = ⟨some (.exchange c), none⟩) : ∃ q g t,
      .execute g t ∈ s.base.points q ∧ t ∈ (s.base.queue q).begun ∧
        c.setToRun = t.action.setToRun := by
  obtain ⟨th, q, g, t, hth, hjob, heq⟩ := (fits h).body i (.exchange c) (by rw [hframe])
  have hmem := SerialTaskQueue.mem_points (List.mem_of_getElem? hth) (.inl hjob)
  exact ⟨q, g, t, hmem, SerialTaskQueue.mem_begun_of_execute (reachable_base h) hmem, heq⟩

/-- Tasks begin in the order in which they were pushed. -/
lemma begun_prefix_pushed (h : Reachable s) (q : Fin k) :
    (s.base.queue q).begun <+: (s.base.queue q).pushed :=
  (SerialTaskQueue.inOrder (reachable_base h) q).begun_popped.trans
    ⟨_, SerialTaskQueue.fifo (reachable_base h) q⟩

/-- What was pushed stays pushed. -/
lemma pushed_step (h : step s a = some s') (q : Fin k) :
    (s.base.queue q).pushed <+: (s'.base.queue q).pushed := by
  rcases step_base h with heq | ⟨b, hb, -⟩
  · rw [heq]
  · exact SerialTaskQueue.pushed_step hb q

/-- What is claimed was pushed. -/
lemma pushed_of_claimed (h : Reachable s) :
    ∀ n ∈ s.claimed, ∃ q, ∃ t ∈ (s.base.queue q).pushed, t.action.setToRun = n := by
  refine h.invariant_of (J := Reachable) (I := fun s => ∀ n ∈ s.claimed, ∃ q,
    ∃ t ∈ (s.base.queue q).pushed, t.action.setToRun = n) id nofun fun s a s' hs ih _ hstep => ?_
  have hold : ∀ n ∈ s.claimed, ∃ q, ∃ t ∈ (s'.base.queue q).pushed, t.action.setToRun = n := by
    intro n hn
    obtain ⟨q, t, ht, heq⟩ := ih n hn
    exact ⟨q, t, (pushed_step hstep q).subset ht, heq⟩
  cases action_step hs hstep with
  | same _ hclaimed => rwa [hclaimed]
  | ends m _ hclaimed => rwa [hclaimed]
  | claims i c hframe _ _ hclaimed =>
    intro n hn
    rw [hclaimed] at hn
    rcases List.mem_append.mp hn with hmem | hmem
    · exact hold n hmem
    · obtain rfl := List.mem_singleton.mp hmem
      obtain ⟨q, g, t, -, hbegun, heq⟩ := begun_of_exchange hs hframe
      exact ⟨q, t, (pushed_step hstep q).subset ((begun_prefix_pushed hs q).subset hbegun), heq.symm⟩

/-- Where a task of `n` is before all of `m` in every queue, an exchange for `m` finds `n` claimed. -/
lemma claimed_of_before (h : Reachable s) {n m i : ℕ} {c : Closure k}
    (hbefore : ∀ q, Before n m (s.base.queue q).pushed)
    (hframe : s.frame i = ⟨some (.exchange c), none⟩) (hc : c.setToRun = m) : n ∈ s.claimed := by
  obtain ⟨q, g, t, hexecute, hbegun, heq⟩ := begun_of_exchange h hframe
  obtain ⟨front, back, hpushed, ⟨u, hu, hun⟩, hne⟩ := hbefore q
  have ht : t.action.setToRun = m := heq.symm.trans hc
  -- the task of `m` has begun, so all of `front` has
  have hfront : front <+: (s.base.queue q).begun := by
    refine (List.prefix_or_prefix_of_prefix (hpushed ▸ begun_prefix_pushed h q)
      (List.prefix_append front back)).resolve_left fun hgrows => ?_
    exact hne t (hgrows.subset hbegun) ht
  rcases claimed_of_begun h q u (hfront.subset hu) with hclaimed | hundecided
  · exact hun ▸ hclaimed
  · -- the queue executes one task at a time, and that is the one of `m`
    obtain ⟨j, th, g', c', hth, hjob, -⟩ := hundecided
    have hmem := SerialTaskQueue.mem_points (List.mem_of_getElem? hth) (.inl hjob)
    have hsame := SerialTaskQueue.owner_unique (reachable_base h) _ rfl rfl hmem hexecute
    obtain ⟨-, rfl⟩ : g = g' ∧ t = u := by simpa using hsame
    exact absurd ht (hne t hu)

/-- **In the order of the calls.** If a call has returned before another one begins, its action is
claimed first. -/
theorem claimed_in_order {s₀ : State k} (h₀ : Reachable s₀) {n m : ℕ} (hn : n ∈ s₀.returned)
    (hm : s₀.nextAction ≤ m) (h : Reaches step s₀ s) (hclaimed : m ∈ s.claimed) :
    [n, m].Sublist s.claimed := by
  have hall : (∀ q, Before n m (s.base.queue q).pushed) ∧
      (m ∈ s.claimed → [n, m].Sublist s.claimed) := by
    refine h.invariant_of (J := Reachable) (I := fun s => (∀ q, Before n m (s.base.queue q).pushed) ∧
      (m ∈ s.claimed → [n, m].Sublist s.claimed)) h₀.trans ⟨fun q => ?_, fun hmem => ?_⟩
      fun s a s' hs ih _ hstep => ⟨fun q => (ih.1 q).of_grows (pushed_step hstep q), fun hmem => ?_⟩
    · obtain ⟨t, ht, heq⟩ := (announced h₀).returned n hn q
      exact ⟨_, [], (List.append_nil _).symm, ⟨t, ht, heq⟩, fun u hu => ne_of_pushed h₀ hm hu⟩
    · obtain ⟨q, t, ht, heq⟩ := pushed_of_claimed h₀ m hmem
      exact absurd heq (ne_of_pushed h₀ hm ht)
    · by_cases hold : m ∈ s.claimed
      · exact (ih.2 hold).trans (claimed_step hs hstep).sublist
      · cases action_step hs hstep with
        | same _ heq => exact absurd (heq ▸ hmem) hold
        | ends _ _ heq => exact absurd (heq ▸ hmem) hold
        | claims i c hframe _ _ heq =>
          rw [heq] at hmem ⊢
          have hc : c.setToRun = m := by
            rcases List.mem_append.mp hmem with hmem | hmem
            · exact absurd hmem hold
            · exact (List.mem_singleton.mp hmem).symm
          have hclaims := claimed_of_before hs ih.1 hframe hc
          rw [hc]
          exact (List.singleton_sublist.mpr hclaims).append (List.Sublist.refl [m])
  exact hall.2 hclaimed

end UnifyPrototype.LimitedTaskQueue
