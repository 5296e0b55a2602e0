import Mathlib.Order.Preorder.Finite
import UnifyPrototype.SerialTaskQueueChains.Counts

/-!
# Chains do not deadlock

Where no step is possible, every thread is idle. A queue with tasks left is paused then, for an action
whose functor is in a later queue of its chain, which has a task left as well. There is no last such
queue.
-/

namespace UnifyPrototype.SerialTaskQueueChains

open UnifyPrototype.Utils
open SerialTaskQueue (QueuedTask Point Thread)
open SerialTaskQueueChain (Closure Op Label Member Ledger stepThrough ReachableThrough Covers
  actionsIn)

/-! ## Whoever is in the middle of something goes on -/

section Progress

variable {Q : Type} [DecidableEq Q] {m_queues : List Q} {s : SerialTaskQueueChain.State Q} {i : ℕ}
  {th : Thread Q Closure}

omit [DecidableEq Q] in
lemma outsideQueues_of_thread (hth : s.base.threads[i]? = some th) (hcall : th.call = none)
    (huser : th.inUserCode = true) : s.outsideQueues i = true := by
  simp [SerialTaskQueueChain.State.outsideQueues, hth, hcall, huser]

variable (m_queues) in
/-- The next operation of the chain's code is possible. -/
lemma exists_proceed {op : Op Q} {rest : List (Op Q)} (hth : s.base.threads[i]? = some th)
    (hcall : th.call = none) (huser : th.inUserCode = true) (hscript : s.script i = op :: rest)
    (hop : op ≠ .iAction) :
    ∃ s', SerialTaskQueueChain.step m_queues s (.proceed i) = some s' ∧ s'.script i = rest := by
  have hout := outsideQueues_of_thread hth hcall huser
  cases hmember : op.call? with
  | none =>
    refine ⟨_, by simp only [SerialTaskQueueChain.step, hout, hscript, if_neg hop, hmember]; rfl, ?_⟩
    simp
  | some c =>
    obtain ⟨q, f⟩ := c
    have hb : SerialTaskQueue.step s.base (.call i q f) = some { s.base with
        threads := s.base.threads.set i { th with call := some (q, f.entry s.base.nextId) }
        nextId := s.base.nextId + 1 } := by
      simp [SerialTaskQueue.step, hth, hcall, huser]
    refine ⟨_, by
      simp only [SerialTaskQueueChain.step, hout, hscript, if_neg hop, hmember, hb]; rfl, ?_⟩
    simp

variable (m_queues) in
/-- The user's functor may return. -/
lemma exists_actionEnds {rest : List (Op Q)} (hth : s.base.threads[i]? = some th)
    (hcall : th.call = none) (huser : th.inUserCode = true)
    (hscript : s.script i = .iAction :: rest) :
    ∃ s', SerialTaskQueueChain.step m_queues s (.actionEnds i false) = some s' ∧
      s'.script i = rest := by
  have hout := outsideQueues_of_thread hth hcall huser
  refine ⟨_, by simp only [SerialTaskQueueChain.step, hout, hscript]; rfl, ?_⟩
  simp [SerialTaskQueueChain.afterAction]

variable (m_queues) in
/-- A task whose functor has nothing left finishes. -/
lemma exists_finish {q : Q} {g : ℕ} {t : QueuedTask Closure}
    (hth : s.base.threads[i]? = some ⟨some (q, .execute g t), none⟩) (hscript : s.script i = []) :
    ∃ s', SerialTaskQueueChain.step m_queues s (.finish i false) = some s' ∧
      s'.base.threads[i]? = some ⟨some (q, .finishedTask g), none⟩ := by
  have hb : SerialTaskQueue.step s.base (.finish i false) = some { s.base with
      threads := s.base.threads.set i ⟨some (q, .finishedTask g), none⟩ } := by
    simp [SerialTaskQueue.step, hth, SerialTaskQueue.afterExecute]
  refine ⟨_, by simp only [SerialTaskQueueChain.step, hscript, if_true, hb]; rfl, ?_⟩
  exact List.getElem?_set_self (List.getElem?_eq_some_iff.mp hth).1

variable (m_queues) in
/-- What a thread can do at a queue, it can do here. -/
lemma exists_advance {b : SerialTaskQueue.State Q Closure}
    (hb : SerialTaskQueue.step s.base (.advance i) = some b) :
    ∃ s', SerialTaskQueueChain.step m_queues s (.advance i) = some s' ∧ s'.base = b := by
  obtain ⟨th, q, pt, r, hth, hnext, -, -⟩ := SerialTaskQueue.step_advance hb
  have hbind : (s.base.threads[i]?).bind Thread.next? = some (q, pt) := by
    rw [hth]
    exact hnext
  exact ⟨_, by simp only [SerialTaskQueueChain.step, hbind, hb]; rfl, rfl⟩

end Progress

variable {C Q : Type} [DecidableEq C] [LinearOrder Q] {chains : C → Chain Q} {through : ℕ → C}
  {s s' : State C Q} {a : Label Q} {L : List Q}

/-- In a quiet state the program stays as it is. -/
lemma State.Quiet.program (hquiet : s.Quiet chains through) {p : SerialTaskQueueChain.State Q}
    (hgoes : goesOn a = true) (h : stepThrough (chainOf chains through) s.program a = some p) :
    p = s.program := by
  have hstep : step chains through s a = some
      { program := p
        outstandingTasks := s.counts through a
        ran := s.ran ++ (s.over? a).toList } := by
    rw [step, h]
    rfl
  exact congrArg State.program (hquiet a _ hgoes hstep)

/-- If no step is possible, the queues are at rest. -/
lemma resting_of_quiet (hquiet : s.Quiet chains through) : s.program.base.Resting := by
  intro i th b hth hb
  obtain ⟨p, hp, rfl⟩ := exists_advance (s.program.running (chainOf chains through) (.advance i)) hb
  rw [hquiet.program rfl hp]
  exact hth

/-- **Where no step is possible, every thread is idle.** -/
theorem idle_of_quiet (hcover : ∀ q, ∃ L, q ∈ L ∧ Covers L (chainOf chains through))
    (h : Reachable chains through s) (hquiet : s.Quiet chains through) {m : Member Q}
    (hm : m ∈ s.program.members) : m = (⟨none, none⟩, []) := by
  have hp := reachable_program h
  have hbase := SerialTaskQueueChain.reachable_base_through hp
  have hapart := SerialTaskQueue.apart hbase
  have hfits := (SerialTaskQueueChain.fits hp).members m hm
  obtain ⟨i, hi⟩ := List.getElem?_of_mem hm
  obtain ⟨hth, hscript⟩ := SerialTaskQueueChain.thread_of_members hi
  -- nobody resumes a queue that is not paused
  have hresume : ∀ q, .resume ∈ s.program.base.points q →
      (s.program.base.queue q).pauseCount ≠ 0 := by
    intro q hmem
    obtain ⟨j, th, hj, hat⟩ := SerialTaskQueue.mem_points_iff.mp hmem
    obtain ⟨L, hq, hL⟩ := hcover q
    rcases hat with hjob | hcall
    · cases hapart.jobs th (List.mem_of_getElem? hj) q _ hjob
    · exact SerialTaskQueueChain.pauseCount_ne_zero_of_resume hL hq hp
        (List.mem_of_getElem? (SerialTaskQueueChain.members_of_thread hj)) hcall
  have hexecute : ∀ {q pt}, m.1.next? = some (q, pt) → ∃ g t, pt = .execute g t :=
    SerialTaskQueue.eq_execute_of_resting hbase (resting_of_quiet hquiet) hresume hth
  have hcall : m.1.call = none := by
    by_contra hne
    obtain ⟨⟨q, pt⟩, hc⟩ := Option.ne_none_iff_exists'.mp hne
    have hnext : m.1.next? = some (q, pt) := by
      unfold Thread.next?
      rw [hc]
    obtain ⟨g, t, rfl⟩ := hexecute hnext
    cases hfits.call q _ hc
  have hjob : ∀ q pt, m.1.job = some (q, pt) → ∃ g t, pt = .execute g t := by
    intro q pt hj
    refine hexecute (q := q) ?_
    unfold Thread.next?
    rw [hcall]
    exact hj
  have huser : m.1.inUserCode = true := by
    unfold Thread.inUserCode
    split
    next => rfl
    next => rfl
    next c hne hj =>
      obtain ⟨g, t, heq⟩ := hjob c.1 c.2 hj
      exact absurd (show c = (c.1, .execute g t) by rw [← heq]) (hne c.1 g t)
  have hempty : m.2 = [] := by
    cases hsc : m.2 with
    | nil => rfl
    | cons op rest =>
      -- the code that is left goes on
      have hrest : s.program.script i = rest := by
        rw [hsc] at hscript
        by_cases hop : op = .iAction
        · subst hop
          obtain ⟨p, hstep, hp'⟩ := exists_actionEnds
            (s.program.running (chainOf chains through) (.actionEnds i false)) hth hcall huser hscript
          rw [← hquiet.program rfl hstep]
          exact hp'
        · obtain ⟨p, hstep, hp'⟩ := exists_proceed
            (s.program.running (chainOf chains through) (.proceed i)) hth hcall huser hscript hop
          rw [← hquiet.program rfl hstep]
          exact hp'
      rw [hscript, hsc] at hrest
      exact absurd hrest (List.cons_ne_self op rest)
  have hnone : m.1.job = none := by
    by_contra hne
    obtain ⟨⟨q, pt⟩, hj⟩ := Option.ne_none_iff_exists'.mp hne
    obtain ⟨g, t, rfl⟩ := hjob q pt hj
    have hth' : s.program.base.threads[i]? = some ⟨some (q, .execute g t), none⟩ := by
      rw [hth, ← hj, ← hcall]
    obtain ⟨p, hstep, hp'⟩ := exists_finish
      (s.program.running (chainOf chains through) (.finish i false)) hth' (hscript.trans hempty)
    rw [hquiet.program rfl hstep, hth'] at hp'
    cases hp'
  obtain ⟨⟨job, call⟩, sc⟩ := m
  simp only at hcall hnone hempty
  rw [hcall, hnone, hempty]

/-! ## A paused queue waits for a later one -/

omit [DecidableEq C] in
/-- Where everyone of a kind has a later one of the kind, there is none. -/
lemma not_of_exists_later {P : Q → Prop} (h : ∀ q ∈ L, P q → ∃ q' ∈ L, q < q' ∧ P q') :
    ∀ q ∈ L, ¬ P q := by
  classical
  intro q hq hP
  have hne : (L.toFinset.filter P).Nonempty := ⟨q, by simp [hq, hP]⟩
  obtain ⟨m, hm, hmax⟩ := Finset.exists_maximal hne
  obtain ⟨hmL, hPm⟩ := Finset.mem_filter.mp hm
  obtain ⟨q', hq', hlt, hP'⟩ := h m (List.mem_toFinset.mp hmL) hPm
  have hle : q' ≤ m := hmax (by simp [hq', hP']) hlt.le
  exact absurd hlt hle.not_gt

/-- What comes before a place of a chain is less. -/
lemma lt_of_mem_take {l : List Q} (hl : l.Pairwise (· < ·)) {n : ℕ} {q q' : Q} (hq : q ∈ l.take n)
    (hq' : l[n]? = some q') : q < q' := by
  obtain ⟨hn, rfl⟩ := List.getElem?_eq_some_iff.mp hq'
  obtain ⟨i, hi, rfl⟩ := List.mem_take_iff_getElem.mp hq
  exact List.pairwise_iff_getElem.mp hl i n _ hn (by omega)

omit [DecidableEq C] in
/-- An action whose functor is at `q'` holds earlier queues only. -/
lemma lt_of_holds {q q' : Q} {A : ℕ → Bool} {c : Closure}
    (hplaced : SerialTaskQueueChain.Placed (c.queues (chainOf chains through)) q' c)
    (h : c.holdsThrough (chainOf chains through) q A ≠ 0) : q < q' := by
  have hordered : ∀ b, (chainOf chains through b).Pairwise (· < ·) :=
    fun b => (chains (through b)).ordered
  cases c with
  | ordinary => exact absurd rfl h
  | passDownChain k g b =>
    have hmem : q ∈ (chainOf chains through b).take (k - 1) := by
      by_contra hnot
      exact h (if_neg fun hand => hnot hand.2)
    exact lt_of_mem_take (hordered b) hmem hplaced.2.2
  | actionToRun b =>
    have hmem : q ∈ (chainOf chains through b).dropLast := by
      by_contra hnot
      exact h (if_neg fun hand => hnot hand.2)
    rw [List.dropLast_eq_take] at hmem
    have hlast : (chainOf chains through b).getLast? = some q' := hplaced
    rw [List.getLast?_eq_getElem?] at hlast
    exact lt_of_mem_take (hordered b) hmem hlast

omit [DecidableEq C] [LinearOrder Q] in
/-- If all threads are idle, only the queues have anything. -/
lemma total_of_idle {p : SerialTaskQueueChain.State Q}
    (hidle : ∀ m ∈ p.members, m = (⟨none, none⟩, [])) (l : Ledger Q) :
    l.total L p = tally (fun q => l.queue q (p.base.queue q)) L := by
  have hzero : tally l.member p.members = 0 := by
    refine tally_eq_zero.mpr fun m hm => ?_
    rw [hidle m hm]
    rfl
  rw [Ledger.total, hzero, Nat.zero_add]

/-- A paused queue is held for a task in a later one. -/
lemma exists_later_task (hcover : Covers L (chainOf chains through))
    (h : Reachable chains through s)
    (hidle : ∀ m ∈ s.program.members, m = (⟨none, none⟩, [])) {q : Q} (hq : q ∈ L)
    (hpaused : (s.program.base.queue q).pauseCount ≠ 0) :
    ∃ q' ∈ L, q < q' ∧ (s.program.base.queue q').tasks ≠ [] := by
  have hp := reachable_program h
  have hbalance := SerialTaskQueueChain.pausing_eq_holding_through hcover hq hp
  rw [total_of_idle hidle, total_of_idle hidle] at hbalance
  have hpausing := le_tally_of_mem
    (fun q' => (SerialTaskQueueChain.pausing q).queue q' (s.program.base.queue q')) hq
  have hself : (SerialTaskQueueChain.pausing q).queue q (s.program.base.queue q)
      = (s.program.base.queue q).pauseCount := if_pos rfl
  -- so some functor holds `q`
  have hsome : ¬ ∀ q' ∈ L, (SerialTaskQueueChain.holdingThrough L (chainOf chains through) q).queue
      q' (s.program.base.queue q') = 0 := by
    intro hall
    have hzero := tally_eq_zero.mpr hall
    omega
  push Not at hsome
  obtain ⟨q', hq', hne⟩ := hsome
  have htask : ¬ ∀ t ∈ (s.program.base.queue q').tasks,
      t.action.holdsThrough (chainOf chains through) q (fun _ => true) = 0 :=
    fun hall => hne (tally_eq_zero.mpr hall)
  push Not at htask
  obtain ⟨t, ht, hholds⟩ := htask
  refine ⟨q', hq', ?_, List.ne_nil_of_mem ht⟩
  exact lt_of_holds ((SerialTaskQueueChain.fits hp).tasks q' t ht) hholds

/-- **No deadlock, and nothing is lost.** Where no step is possible, everything has run. -/
theorem drained_of_quiet [Fintype C] (h : Reachable chains through s)
    (hquiet : s.Quiet chains through) : s.Drained := by
  have hcovers : ∀ q, ∃ L, q ∈ L ∧ Covers L (chainOf chains through) :=
    exists_covers chains through
  have hp := reachable_program h
  have hbase := SerialTaskQueueChain.reachable_base_through hp
  have hidle : ∀ m ∈ s.program.members, m = (⟨none, none⟩, []) :=
    fun m hm => idle_of_quiet hcovers h hquiet hm
  have hnobody : ∀ q pt, pt ∉ s.program.base.points q := by
    refine SerialTaskQueue.notMem_points_of_idle fun th hth => ?_
    obtain ⟨i, hi⟩ := List.getElem?_of_mem hth
    have hm := hidle _ (List.mem_of_getElem? (SerialTaskQueueChain.members_of_thread hi))
    rw [(Prod.mk.inj hm).1]
    rfl
  -- a paused queue is held by a task of a later queue, which is paused as well; the last one is not
  have hunpaused : ∀ q, (s.program.base.queue q).pauseCount = 0 := by
    intro q
    obtain ⟨L, hq, hcover⟩ := hcovers q
    by_contra hne
    refine not_of_exists_later (L := L)
      (P := fun q => (s.program.base.queue q).pauseCount ≠ 0) ?_ q hq hne
    intro q₁ hq₁ hpaused
    obtain ⟨q', hq', hlt, htasks⟩ := exists_later_task hcover h hidle hq₁ hpaused
    refine ⟨q', hq', hlt, fun hzero => htasks ?_⟩
    exact SerialTaskQueue.tasks_eq_nil_of_idle hbase (hnobody q') hzero
  -- a queue that is not paused and has nobody at it has no tasks
  have htasks : ∀ q, (s.program.base.queue q).tasks = [] :=
    fun q => SerialTaskQueue.tasks_eq_nil_of_idle hbase (hnobody q) (hunpaused q)
  -- so nothing bears an action, and both ledgers are balanced by what has run
  have hempty : ∀ (L : List Q) (A : ℕ → Bool) (e : ℕ → ℕ),
      (SerialTaskQueueChain.borne L A e).total L s.program = 0 := by
    intro L A e
    rw [total_of_idle hidle]
    refine tally_eq_zero.mpr fun q _ => ?_
    show tally _ (s.program.base.queue q).tasks = 0
    rw [htasks q]
    rfl
  obtain ⟨L, -, hcover⟩ := hcovers ((chains (through 0)).m_queues.head (chains (through 0)).nonempty)
  refine ⟨fun a => ?_, fun c => ?_, hunpaused, htasks⟩
  · have hcount := functors_add_ran hcover h a
    have hruns : tally (runs a) s.program.members = 0 := by
      refine tally_eq_zero.mpr fun m hm => ?_
      rw [hidle m hm]
      rfl
    rw [hempty, hruns] at hcount
    omega
  · have hcount := outstanding_eq hcover h c
    rw [hempty] at hcount
    omega

/-- Idle threads make no step. -/
theorem quiet_of_idle (h : Reachable chains through s)
    (hidle : ∀ m ∈ s.program.members, m = (⟨none, none⟩, [])) : s.Quiet chains through := by
  intro a s' hgoes hstep
  have hp := reachable_program h
  have hidle' : ∀ {i : ℕ} {m : Member Q}, s.program.members[i]? = some m → m = (⟨none, none⟩, []) :=
    fun hm => hidle _ (List.mem_of_getElem? hm)
  cases SerialTaskQueueChain.label_cases (SerialTaskQueueChain.bounded_through hp)
    (step_eq hstep).1 with
  | fork | push | pushOrdinary => cases hgoes
  | proceed hm => cases hidle' hm
  | actionEnds hm => cases hidle' hm
  | finish hm => cases hidle' hm
  | advance hm hpt =>
    obtain ⟨rfl, -⟩ := Prod.mk.inj (hidle' hm)
    cases hpt

/-! ## One action at a time, in order -/

/-- **At most one action of a chain is executing**: all of them execute on the last queue. -/
theorem one_at_a_time (h : Reachable chains through s) : s.OneAtATime through := by
  intro i j a b ha hb hsame
  have hp := reachable_program h
  have hlast : ∀ {i k : ℕ}, s.program.runsAction i k → ∃ th q g t,
      s.program.base.threads[i]? = some th ∧ th.job = some (q, .execute g t) ∧
        t.action = .actionToRun k ∧ (chains (through k)).m_queues.getLast? = some q := by
    rintro i k ⟨q, t, ⟨th, g, hth, hjob⟩, hact, -⟩
    have hm := SerialTaskQueueChain.members_of_thread hth
    have hfits := (SerialTaskQueueChain.fits hp).members _ (List.mem_of_getElem? hm)
    have hplaced := hfits.placed q _ (.inl hjob) t (by simp [Point.tasks])
    rw [hact] at hplaced
    exact ⟨th, q, g, t, hth, hjob, hact, hplaced⟩
  obtain ⟨th, q, g, t, hth, hjob, hact, hq⟩ := hlast ha
  obtain ⟨th', q', g', t', hth', hjob', hact', hq'⟩ := hlast hb
  rw [hsame] at hq
  obtain rfl := Option.some.inj (hq.symm.trans hq')
  obtain rfl := SerialTaskQueue.runner_unique (SerialTaskQueueChain.reachable_base_through hp)
    hth hth' hjob hjob' rfl rfl
  obtain rfl := Option.some.inj (hth.symm.trans hth')
  cases hjob.symm.trans hjob'
  cases hact.symm.trans hact'
  exact ⟨rfl, rfl⟩

/-- Where no hop of an action of `A` is, its functors execute it. -/
lemma runs_eq_actionsIn {A : ℕ → Bool} {ts : List (QueuedTask Closure)}
    (h : ∀ t ∈ ts, ∀ k g a, t.action = .passDownChain k g a → A a = false) :
    (ts.filterMap fun t => runs? t.action).filter A = actionsIn A ts := by
  induction ts with
  | nil => rfl
  | cons t ts ih =>
    have hrest := ih fun t' ht' => h t' (List.mem_cons_of_mem _ ht')
    have hsplit := SerialTaskQueueChain.actionsIn_append (A := A) [t] ts
    rw [List.singleton_append] at hsplit
    rw [hsplit, ← hrest]
    cases hact : t.action with
    | ordinary => simp [hact, runs?, actionsIn,
        SerialTaskQueueChain.Closure.action?]
    | passDownChain k g a =>
      have hA := h t List.mem_cons_self k g a hact
      simp [hact, runs?, actionsIn, SerialTaskQueueChain.Closure.action?, hA]
    | actionToRun a =>
      cases hA : A a <;> simp [hact, runs?, actionsIn,
        SerialTaskQueueChain.Closure.action?, hA]

/-- **The actions of a chain start in the order in which they entered its first queue.** -/
theorem started_prefix_entered [Fintype C] (h : Reachable chains through s) (c : C) :
    s.started chains through c <+: s.entered chains through c := by
  have hp := reachable_program h
  set l := (chains c).m_queues with hl
  have hne : l ≠ [] := (chains c).nonempty
  obtain ⟨L, -, hcover⟩ := exists_covers chains through (l.head hne)
  have hA : ∀ a, decide (through a = c) = true → chainOf chains through a = l := by
    intro a ha
    rw [chainOf, of_decide_eq_true ha]
  have hfirst : l[0]? = some (l.head hne) := by
    rw [← List.head?_eq_getElem?]
    exact List.head?_eq_some_head hne
  have hlast : l[l.length - 1]? = some (l.getLast hne) := by
    rw [← List.getLast?_eq_getElem?]
    exact List.getLast?_eq_some_getLast hne
  have hinOrder := SerialTaskQueueChain.begun_prefix_entered hcover hp hA hfirst hlast
  have hstarted : s.started chains through c
      = actionsIn (fun a => decide (through a = c)) (s.program.base.queue (l.getLast hne)).begun := by
    refine runs_eq_actionsIn fun t ht k g a hact => decide_eq_false fun hc => ?_
    -- a hop is on no last queue
    have hpushed := (SerialTaskQueueChain.begun_prefix_pushed hp _).subset ht
    have hplaced := (SerialTaskQueueChain.fits hp).pushed _ t hpushed
    rw [hact] at hplaced
    obtain ⟨hk, hlt, hq⟩ := hplaced
    change k < (chainOf chains through a).length at hlt
    change (chainOf chains through a)[k - 1]? = _ at hq
    rw [hA a (decide_eq_true hc)] at hlt hq
    have heq := SerialTaskQueueChain.index_unique (chains c).nodup hq hlast
    omega
  rw [hstarted]
  exact hinOrder

/-! ## The result -/

/-- **Chained queues never deadlock and never lose or reorder an action.** -/
theorem never_deadlocks [Fintype C] (h : Reachable chains through s) :
    (s.Quiet chains through → s.Drained) ∧ s.OneAtATime through ∧
      ∀ c, s.started chains through c <+: s.entered chains through c :=
  ⟨drained_of_quiet h, one_at_a_time h, started_prefix_entered h⟩

/-- Two chains that have their last queue in common. -/
def twoChains : Bool → Chain Bool
  | false => ⟨[false, true], by decide, by decide⟩
  | true => ⟨[true], by decide, by decide⟩

/-- Thread 0 pushes an action through each chain. -/
def pushThroughBoth : List (Label Bool) :=
  [[.fork, .push 0 0, .proceed 0, .proceed 0], .replicate 7 (.advance 0),
    [.push 0 0, .proceed 0, .proceed 0], .replicate 7 (.advance 0)].flatten

/-- The hop of the first action comes to the common queue after the second action, which throws. -/
def runBoth : List (Label Bool) :=
  [.replicate 2 (.advance 1), [.proceed 1, .advance 1, .proceed 1], .replicate 5 (.advance 1),
    [.finish 1 false, .advance 1, .advance 1], .replicate 2 (.advance 2),
    [.actionEnds 2 true, .proceed 2, .finish 2 false], .replicate 7 (.advance 2),
    [.actionEnds 2 false, .proceed 2], .replicate 7 (.advance 2), [.proceed 2, .finish 2 false],
    .replicate 7 (.advance 2)].flatten

theorem never_deadlocks_twoChains :
    ∃ s : State Bool Bool, Reachable twoChains (fun a => a == 1) s ∧ s.ran = [1, 0] ∧
      s.Drained := by
  have hrun : ∃ s, executeAll (step twoChains fun a => a == 1) {} (pushThroughBoth ++ runBoth)
      = some s ∧ s.ran = [1, 0] ∧ s.program.members = List.replicate 3 (⟨none, none⟩, []) :=
    ⟨_, rfl, rfl, rfl⟩
  obtain ⟨s, hs, hran, hmembers⟩ := hrun
  have hreach : Reachable twoChains (fun a => a == 1) s := .of_executeAll _ hs
  have hquiet : s.Quiet twoChains fun a => a == 1 := by
    refine quiet_of_idle hreach fun m hm => ?_
    rw [hmembers] at hm
    exact List.eq_of_mem_replicate hm
  exact ⟨s, hreach, hran, (never_deadlocks hreach).1 hquiet⟩

end UnifyPrototype.SerialTaskQueueChains
