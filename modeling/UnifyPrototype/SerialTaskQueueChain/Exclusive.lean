import UnifyPrototype.SerialTaskQueueChain.Bearing

/-!
# Exclusive use of all queues

While an action runs in `actionToRun` it holds every queue of the chain but the last, and its own
task is the one that runs on the last. A queue that somebody holds starts no task, unless a thread
picks one after an out-of-date read of `m_pauseCount`.
-/

namespace UnifyPrototype.SerialTaskQueueChain

open UnifyPrototype.Utils
open SerialTaskQueue (QueuedTask Queue Point Thread Result Operation operation step_at)

variable {Q : Type} [DecidableEq Q] {m_queues : List Q} {s s' : State Q} {q : Q} {a : Label Q}

/-! ## Tasks start on queues that nobody holds -/

/-- Owns the chosen flag for a task that has not finished. -/
def active : Point Closure → Bool
  | .finishedTask _ => false
  | pt => pt.owns == 1

/-- All actions but the one whose hop is executing. -/
def others : Point Closure → ℕ → Bool
  | .execute _ ⟨_, _, .passDownChain _ _ a⟩ => fun b => b != a
  | _ => fun _ => true

/-- Who is at work for an action owns the queue. -/
lemma owns_of_active {pt : Point Closure} (h : active pt = true) : pt.owns = 1 := by
  cases pt with
  | finishedTask => cases h
  | _ => exact eq_of_beq h

/-- A task of `q` that was picked and has not finished finds `q` held by no action but its own. -/
def State.Unheld (m_queues : List Q) (s : State Q) (q : Q) : Prop :=
  ∀ pt ∈ s.base.points q, active pt = true →
    (held m_queues q (others pt)).total m_queues s = 0

/-- Where an operation leads to an owner of the flag, the flag was set just now, or the thread was
its owner. -/
lemma active_step {m : Queue Closure} {pt n : Point Closure} {r : Result Closure}
    (h : pt.step m = some r) (hn : n ∈ r.points) (hactive : active n = true)
    (hloop : ∀ g t, pt ≠ .loop g t) :
    others n = (fun _ => true) ∧ ((∃ c, pt = .pick c .chooseTask ∧ m.taskChosen = false) ∨
      active pt = true ∧ others pt = fun _ => true) := by
  cases operation h with
  | choose c hclear =>
    obtain rfl : n = .pick c .tryPop := by simpa [Result.points] using hn
    exact ⟨rfl, .inl ⟨c, rfl, hclear⟩⟩
  | pop | empty | unlockSpawn | unlockLoop | spawn | waiting =>
    obtain rfl := List.mem_singleton.mp hn
    exact ⟨rfl, .inr ⟨rfl, rfl⟩⟩
  | loop g t => exact absurd rfl (hloop g t)
  | push | resumeLast | notPaused | spin | lock | alreadyChosen | clear | finishedTask =>
    obtain rfl := List.mem_singleton.mp hn
    cases hactive
  | _ => cases hn

/-- An operation of a thread is one at a queue. -/
lemma step_advance_base {i : ℕ} (h : step m_queues s (.advance i) = some s') :
    SerialTaskQueue.step s.base (.advance i) = some s'.base := by
  simp only [step] at h
  split at h
  · obtain ⟨b, hb, rfl⟩ := Option.map_eq_some_iff.mp h
    exact hb
  · cases h

/-- The step of a thread that begins to execute a task of `q`. -/
lemma unheld_loop {i g : ℕ} {th : Thread Q Closure} {t : QueuedTask Closure}
    (hnodup : m_queues.Nodup) (hs : Reachable m_queues s) (ih : s.Unheld m_queues q)
    (hth : s.base.threads[i]? = some th) (hpt : th.next? = some (q, .loop g t))
    (hstep : step m_queues s (.advance i) = some s') : s'.Unheld m_queues q := by
  have hs' : Reachable m_queues s' := hs.tail trivial hstep
  have hmem : .loop g t ∈ s.base.points q :=
    SerialTaskQueue.mem_points (List.mem_of_getElem? hth) (SerialTaskQueue.Thread.next?_eq hpt)
  have hexecute : .execute g t ∈ s'.base.points q := by
    obtain ⟨th', q', pt, r, hth', hpt', hr, hbase⟩ :=
      SerialTaskQueue.step_advance (step_advance_base hstep)
    obtain rfl : th' = th := by simpa [hth] using hth'.symm
    obtain ⟨rfl, rfl⟩ : q' = q ∧ pt = .loop g t := by simpa [hpt] using hpt'.symm
    obtain rfl := Option.some.inj hr
    have hin : th'.goto (some (q', .execute g t)) ∈ s'.base.threads := by
      rw [hbase]
      exact List.mem_append_left _ (List.mem_set (List.getElem?_eq_some_iff.mp hth).1 _)
    refine SerialTaskQueue.mem_points hin ?_
    rcases th' with ⟨job, _ | c⟩
    · exact .inl rfl
    · exact .inr rfl
  intro pt hpt' hactive
  -- the flag has one owner, so the only task to speak of is the one that begins
  obtain rfl : pt = .execute g t :=
    SerialTaskQueue.owner_unique (reachable_base hs') (.execute g t) rfl
      (owns_of_active hactive) hexecute hpt'
  have hhop : t.action.isHop (others (.execute g t)) = false := by
    obtain ⟨id, g', c⟩ := t
    cases c <;> simp [Closure.isHop, others]
  have hle : (held m_queues q (others (.execute g t))).total m_queues s'
      ≤ (held m_queues q (others (.execute g t))).total m_queues s := by
    refine held_step hnodup hs hstep fun j th' g' t' hlabel hth' hpt' => ?_
    obtain rfl : i = j := by simpa using hlabel
    obtain rfl : th' = th := by simpa [hth] using hth'.symm
    obtain ⟨-, rfl⟩ : g' = g ∧ t' = t := by simpa [hpt, eq_comm] using hpt'
    exact hhop
  have hzero : (held m_queues q fun _ => true).total m_queues s = 0 := ih (.loop g t) hmem rfl
  have hmono := held_mono m_queues (s := s) (q := q) (others (.execute g t))
  omega

/-- Any other step. -/
lemma unheld_other (hnodup : m_queues.Nodup) (hq : q ∈ m_queues) (hs : Reachable m_queues s)
    (ih : s.Unheld m_queues q) (hfresh : Fresh s a) (hstep : step m_queues s a = some s')
    (hloop : ∀ i th g t, a = .advance i → s.base.threads[i]? = some th →
      th.next? ≠ some (q, .loop g t)) : s'.Unheld m_queues q := by
  have hle : ∀ A, (held m_queues q A).total m_queues s' ≤ (held m_queues q A).total m_queues s :=
    fun A => held_step hnodup hs hstep fun i th g t hlabel hth hpt =>
      absurd hpt (hloop i th g t hlabel hth)
  have hold : ∀ pt ∈ s.base.points q, active pt = true →
      (held m_queues q (others pt)).total m_queues s' = 0 := by
    intro pt hpt hactive
    have := ih pt hpt hactive
    have := hle (others pt)
    omega
  rcases step_base hstep with heq | ⟨b, hb, hbfresh, hlabel⟩
  · intro pt hpt
    rw [heq] at hpt
    exact hold pt hpt
  · cases step_at q hb with
    | elsewhere hqueue hc =>
      exact SerialTaskQueue.forall_points_of_count [] hold (by simp) fun w => by simp [hc]
    | entered op hqueue _ hc =>
      refine SerialTaskQueue.forall_points_of_count [op.entry s.base.nextId] hold ?_
        fun w => by simp [hc]
      intro pt hpt hactive
      obtain rfl := List.mem_singleton.mp hpt
      cases op <;> cases hactive
    | finished i threw g t _ _ _ hqueue hc =>
      refine SerialTaskQueue.forall_points_of_count [.finishedTask g] hold ?_ fun w => ?_
      · intro pt hpt hactive
        obtain rfl := List.mem_singleton.mp hpt
        cases hactive
      · have := hc w
        simp only [tally_cons, tally_nil]
        omega
    | moved i th pt r hlabel' hth hnext hmem hr hqueue hc =>
      refine SerialTaskQueue.forall_points_of_count _ hold ?_ (SerialTaskQueue.count_le_of_moved hc)
      intro n hn hactive
      -- a point that becomes active came through a pause count of zero, or was active before
      have hnotLoop : ∀ g t, pt ≠ .loop g t := by
        rintro g t rfl
        exact hloop i th g t (hlabel i hlabel') hth hnext
      obtain ⟨hothers, ⟨c, rfl, hclear⟩ | ⟨hactive', hothers'⟩⟩ := active_step hr hn hactive hnotLoop
      · have hcount := SerialTaskQueue.pauseCount_of_fresh (hlabel' ▸ hbfresh hfresh) hth hnext hclear
        have hzero := held_eq_zero hnodup hq hs hclear hcount (others n)
        have := hle (others n)
        omega
      · rw [hothers, ← hothers']
        exact hold pt hmem hactive'

/-- **No task starts on a queue that somebody holds**, in a run without out-of-date reads. -/
theorem unheld (hnodup : m_queues.Nodup) (hq : q ∈ m_queues)
    (h : RunsTo (step m_queues) Fresh {} s) : s.Unheld m_queues q := by
  refine h.invariant_of (J := Reachable m_queues) (I := fun s => s.Unheld m_queues q)
    RunsTo.reaches (by simp [State.Unheld, SerialTaskQueue.State.points])
    fun s a s' hs ih hfresh hstep => ?_
  by_cases hloop : ∃ i th g t, a = .advance i ∧ s.base.threads[i]? = some th ∧
      th.next? = some (q, .loop g t)
  · obtain ⟨i, th, g, t, rfl, hth, hpt⟩ := hloop
    exact unheld_loop hnodup hs ih hth hpt hstep
  · exact unheld_other hnodup hq hs ih hfresh hstep fun i th g t hlabel hth hpt =>
      hloop ⟨i, th, g, t, hlabel, hth, hpt⟩

/-! ## The result -/

/-- Thread `i` is inside `execute()` of the task `t` of queue `q`. -/
def State.executes (s : State Q) (i : ℕ) (q : Q) (t : QueuedTask Closure) : Prop :=
  ∃ th g, s.base.threads[i]? = some th ∧ th.job = some (q, .execute g t)

/-- Thread `i` runs the user's functor of the action `k` in `actionToRun`. -/
def State.runsAction (s : State Q) (i k : ℕ) : Prop :=
  ∃ q t, s.executes i q t ∧ t.action = .actionToRun k ∧ .iAction ∈ s.script i

/-- Thread `i` is at the end of a hop: it has made the `m_tasks.push` on the next queue. -/
def State.hasPassedDown (s : State Q) (i : ℕ) : Prop :=
  s.script i = [] ∧ ∀ th q pt, s.base.threads[i]? = some th → th.call = some (q, pt) →
    pt ≠ .pause ∧ ∀ t, pt ≠ .push t

/-- While an action runs, every other task that executes on a queue of the chain is the end of one
of the action's own hops. -/
def State.Exclusive (m_queues : List Q) (s : State Q) : Prop :=
  ∀ i k, s.runsAction i k → ∀ j q t, s.executes j q t → q ∈ m_queues →
    j = i ∨ (∃ n g, t.action = .passDownChain n g k) ∧ s.hasPassedDown j

lemma executes_points {i : ℕ} {t : QueuedTask Closure} (h : s.executes i q t) :
    ∃ g, .execute g t ∈ s.base.points q := by
  obtain ⟨th, g, hth, hjob⟩ := h
  exact ⟨g, SerialTaskQueue.mem_points (List.mem_of_getElem? hth) (.inl hjob)⟩

/-- The action that runs holds all queues but the last, and is nowhere else. -/
lemma runsAction_member {i k : ℕ} (h : Reachable m_queues s) (hrun : s.runsAction i k) :
    ∃ m q₀ t₀, s.members[i]? = some m ∧ s.executes i q₀ t₀ ∧ m_queues.getLast? = some q₀ ∧
      (∀ q ∈ m_queues.dropLast, Op.resume k q ∈ m.2) ∧ 1 ≤ (bearing m_queues k).member m := by
  obtain ⟨q₀, t₀, hexec, hact, hiAction⟩ := hrun
  obtain ⟨th, g, hth, hjob⟩ := hexec
  have hm := members_of_thread hth
  have hgood := (good h).members _ (List.mem_of_getElem? hm)
  have hplaced := hgood.placed q₀ _ (.inl hjob) t₀ (by simp [Point.tasks])
  have hleft := hgood.code q₀ g t₀ hjob
  rw [hact] at hplaced hleft
  obtain ⟨front, hsuffix⟩ := hleft.resolve_right fun h => h hiAction
  have hscript : s.script i = front ++ .iAction :: sentryAction m_queues k := hsuffix.symm
  refine ⟨_, q₀, t₀, hm, ⟨th, g, hth, hjob⟩, hplaced, fun q hq => ?_, ?_⟩
  · have hin : Op.resume k q ∈ sentryAction m_queues k := mem_sentryAction.mpr (.inl ⟨q, hq, rfl⟩)
    simp [hscript, hin]
  · have hends : tally (bearing m_queues k).op (sentryAction m_queues k) = 1 := by
      rw [tally_ends, if_pos rfl]
    simp only [Ledger.member, hscript, tally_append, tally_cons]
    omega

variable (m_queues) in
/-- A held queue is one that the running action of the chain holds. -/
lemma one_le_held {m : Member Q} {k : ℕ} {A : ℕ → Bool} (hm : m ∈ s.members) (hA : A k = true)
    (hresume : Op.resume k q ∈ m.2) : 1 ≤ (held m_queues q A).total m_queues s := by
  have hop : (held m_queues q A).op (.resume k q) = 1 := by
    simp [held, carried, Op.resumes, hA]
  have hle := le_tally_of_mem (held m_queues q A).op hresume
  have hmember : tally (held m_queues q A).op m.2 ≤ (held m_queues q A).member m :=
    Nat.le_add_left _ _
  have htotal := (held m_queues q A).le_total m_queues hm
  omega

/-- A hop of an action that is elsewhere has passed the action down. -/
lemma hasPassedDown_of_bearing {j n g k : ℕ} {t : QueuedTask Closure} (h : Reachable m_queues s)
    (hexec : s.executes j q t) (hact : t.action = .passDownChain n g k)
    (hzero : ∀ m, s.members[j]? = some m → (bearing m_queues k).member m = 0) :
    s.hasPassedDown j := by
  obtain ⟨th, g', hth, hjob⟩ := hexec
  have hm := members_of_thread hth
  have hgood := (good h).members _ (List.mem_of_getElem? hm)
  have hplaced := hgood.placed q _ (.inl hjob) t (by simp [Point.tasks])
  have hleft := hgood.code q g' t hjob
  rw [hact] at hplaced hleft
  obtain ⟨hsuffix, hpause, hpush⟩ := hleft
  have hzero := hzero _ hm
  simp only [Ledger.member] at hzero
  -- the push is over: if it were still to come, the thread would bear the action
  have hscript : s.script j = [] := by
    obtain ⟨hn, hlt, -⟩ := hplaced
    rw [passDownChain_eq hn hlt] at hsuffix
    change s.script j <:+ _ at hsuffix
    have hnext : (bearing m_queues k).op (.push m_queues[n] g
        (if n + 1 = m_queues.length then .actionToRun k else .passDownChain (n + 1) g k)) = 1 := by
      by_cases hlast : n + 1 = m_queues.length <;>
        simp [bearing, carried, Closure.isOf, Closure.action?, hlast]
    rcases List.suffix_cons_iff.mp hsuffix with hsc | hsuffix
    · simp only [hsc, tally_cons] at hzero
      omega
    · rcases List.suffix_cons_iff.mp hsuffix with hsc | hsc
      · simp only [hsc, tally_cons] at hzero
        omega
      · exact List.suffix_nil.mp hsc
  refine ⟨hscript, fun th' q' pt hth' hcall => ?_⟩
  obtain rfl : th' = th := by simpa [hth] using hth'.symm
  constructor
  · rintro rfl
    have := hpause q' hcall
    simp [hscript] at this
  · rintro t' rfl
    have haction := hpush q' t' hcall
    have hplaced' := hgood.placed q' _ (.inr hcall) t' (by simp [Point.tasks])
    have hmem : q' ∈ m_queues := by
      -- nor is the thread inside of the push
      rcases mem_of_placed hplaced' with hordinary | hmem
      · rw [hordinary] at haction
        cases haction
      · exact hmem
    simp [hcall, bearing, carried, hmem, Point.tasks, Closure.isOf, haction] at hzero

/-- Only a hop of the action itself is left out. -/
lemma hop_of_not_others {g k : ℕ} {t : QueuedTask Closure}
    (h : others (.execute g t) k = false) : ∃ n g', t.action = .passDownChain n g' k := by
  obtain ⟨id, g₀, c⟩ := t
  cases c with
  | passDownChain n g' a =>
    obtain rfl : k = a := by simpa [others] using h
    exact ⟨n, g', rfl⟩
  | _ => cases h

/-- **Exclusive use.** In a run without out-of-date reads an action that runs in `actionToRun` is
alone on all queues of its chain. -/
theorem exclusive_use (hnodup : m_queues.Nodup) (h : RunsTo (step m_queues) Fresh {} s) :
    s.Exclusive m_queues := by
  intro i k hrun j q t hexec hq
  have hs : Reachable m_queues s := h.reaches
  obtain ⟨m, q₀, t₀, hm, hexec₀, hlast, hresume, hbear⟩ := runsAction_member hs hrun
  by_cases hij : j = i
  · exact .inl hij
  obtain ⟨g, hpt⟩ := executes_points hexec
  -- the other task's own hop aside nobody holds `q`, but the action does
  have hothers : others (.execute g t) k = false := by
    by_contra hA
    rw [Bool.not_eq_false] at hA
    have hunheld := unheld hnodup hq h _ hpt rfl
    have hne : q ≠ q₀ := by
      rintro rfl
      obtain ⟨th, g₁, hth, hjob⟩ := hexec
      obtain ⟨th', g₂, hth', hjob'⟩ := hexec₀
      exact hij (SerialTaskQueue.runner_unique (reachable_base hs) hth hth' hjob hjob' rfl rfl)
    have hheld : q ∈ m_queues.dropLast := by
      rw [← List.dropLast_append_getLast? q₀ hlast, List.mem_append, List.mem_singleton] at hq
      exact hq.resolve_right hne
    have := one_le_held m_queues (List.mem_of_getElem? hm) hA (hresume q hheld)
    omega
  obtain ⟨n, g', hact⟩ := hop_of_not_others hothers
  refine .inr ⟨⟨n, g', hact⟩, hasPassedDown_of_bearing hs hexec hact fun m' hm' => ?_⟩
  have hadd := (bearing m_queues k).add_le_total m_queues hij hm' hm
  have hle := bearing_le hnodup hs k
  split_ifs at hle <;> omega

/-! ## One run in which it holds, and one in which it does not -/

/-- Thread 0 pushes an action through the chain; thread 1 begins the hop on the first queue. -/
def pushThroughChain : List (Label Bool) :=
  [.fork, .push 0 0, .proceed 0, .proceed 0] ++ List.replicate 7 (.advance 0) ++
    List.replicate 2 (.advance 1)

/-- The hop pauses the first queue and passes the action to the second one. -/
def passDown : List (Label Bool) :=
  [.proceed 1, .advance 1, .proceed 1] ++ List.replicate 7 (.advance 1)

/-- A third thread pushes an ordinary task onto the first queue, reads that the queue is not paused,
and is delayed. -/
def delayedPush : List (Label Bool) :=
  [.fork, .pushOrdinary 2 false 0, .advance 2, .advance 2]

/-- The task of the hop finishes, the action begins to run, and the delayed thread goes on. -/
def delayedPick : List (Label Bool) :=
  [.finish 1 false, .advance 1, .advance 1, .advance 3, .advance 3] ++
    List.replicate 5 (.advance 2) ++ List.replicate 2 (.advance 4)

theorem exclusive_use_passDown :
    ∃ s : State Bool, s.runsAction 2 0 ∧ s.Exclusive [false, true] := by
  have hrun : ∃ s, execute (step [false, true]) freshPick {}
      (pushThroughChain ++ passDown ++ List.replicate 2 (.advance 2)) = some s ∧
      s.base.threads[2]? = some ⟨some (true, .execute 0 ⟨2, 0, .actionToRun 0⟩), none⟩ ∧
      .iAction ∈ s.script 2 := ⟨_, rfl, rfl, by decide⟩
  obtain ⟨s, hs, hth, hscript⟩ := hrun
  exact ⟨s, ⟨true, _, ⟨_, 0, hth, rfl⟩, rfl, hscript⟩,
    exclusive_use (by decide) (.of_execute _ (fun _ _ h => h) hs)⟩

/-- **Use need not be exclusive.** The delayed thread picks the ordinary task while the first queue
is paused for an action that is running. -/
theorem use_not_exclusive :
    ¬ ∀ s : State Bool, Reachable [false, true] s → s.Exclusive [false, true] := by
  have hrun : ∃ s, executeAll (step [false, true]) {}
      (pushThroughChain ++ delayedPush ++ passDown ++ delayedPick) = some s ∧
      s.base.threads[3]? = some ⟨some (true, .execute 0 ⟨3, 0, .actionToRun 0⟩), none⟩ ∧
      .iAction ∈ s.script 3 ∧
      s.base.threads[4]? = some ⟨some (false, .execute 0 ⟨1, 0, .ordinary⟩), none⟩ :=
    ⟨_, rfl, rfl, by decide, rfl⟩
  obtain ⟨s, hs, hth, hscript, hth'⟩ := hrun
  intro hall
  have hexcl := hall s (.of_executeAll _ hs) 3 0 ⟨true, _, ⟨_, 0, hth, rfl⟩, rfl, hscript⟩ 4 false _
    ⟨_, 0, hth', rfl⟩ (by decide)
  rcases hexcl with heq | ⟨⟨n, g, hact⟩, -⟩
  · cases heq
  · cases hact

end UnifyPrototype.SerialTaskQueueChain
