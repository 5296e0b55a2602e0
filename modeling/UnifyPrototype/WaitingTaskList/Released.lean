import UnifyPrototype.Utils.Counters
import UnifyPrototype.WaitingTaskList.Places

/-!
# Every added task is released once

The second `setNextNode` of `add(WaitingTaskHolder)` can write a node of the heap that an announcing
thread has deleted in the meantime and that is now the node of another call. The write cuts the list
and the tasks behind it are never released. In every run in which it does not happen, they are.
-/

namespace UnifyPrototype.WaitingTaskList

open UnifyPrototype.Utils

variable {E : Type} {s s' s₁ : State E} {a i : ℕ} {pt : Point E} {p : Option (Point E)}

/-! ## The reference counts -/

/-- One for a call that adds the task. -/
def ofTask (task : ℕ) (t : Added) : ℕ :=
  if t.task = task then 1 else 0

/-- A task has the references that are held outside, and those that were added and not released. -/
def State.Counted (s : State E) : Prop :=
  ∀ task, s.refCount task + tally (ofTask task) s.released
    = s.outside task + tally (ofTask task) s.added

/-- Only a release counts a task down, and it is recorded. -/
lemma Advances.refCount (h : Advances s a pt s₁ p) :
    (s₁.refCount = s.refCount ∧ s₁.released = s.released) ∨
      ∃ t, carry t (some pt) = 1 ∧ s₁.released = s.released ++ [t] ∧
        s₁.refCount = Function.update s.refCount t.task (s.refCount t.task - 1) := by
  cases h with
  | wait | tooLate | exchangeHead | stillWaiting | notWaiting | setException | clearWaiting
  | exchangeNull | pause | readNext => exact .inl ⟨rfl, rfl⟩
  | lateRelease t => exact .inr ⟨t, if_pos rfl, rfl, rfl⟩
  | release t next => exact .inr ⟨t, if_pos rfl, rfl, rfl⟩
  | late t | fail t =>
    obtain ⟨failed, heq⟩ := dependentTaskFailed_eq s t
    rw [heq]
    exact .inl ⟨rfl, rfl⟩
  | createNode o t n hcreate =>
    obtain ⟨nodeCache, heap, rfl⟩ := createNode_eq hcreate
    exact .inl ⟨rfl, rfl⟩
  | link o t n m =>
    obtain ⟨nodeCache, heap, heq⟩ := setNextNode_eq s (some m) n
    rw [heq]
    exact .inl ⟨rfl, rfl⟩
  | linkFirst t n | linkFirstTask t n | linkAgain t n =>
    obtain ⟨nodeCache, heap, heq⟩ := setNextNode_eq s none n
    rw [heq]
    exact .inl ⟨rfl, rfl⟩
  | free t n next node =>
    obtain ⟨heap, heq⟩ := free_eq s n node.fromCache
    rw [heq]
    exact .inl ⟨rfl, rfl⟩

/-- No task is released more often than it was added. -/
lemma State.Placed.count_le (h : s.Placed) (t : Added) :
    s.released.count t ≤ s.added.count t := by
  obtain ⟨stack, chains, howned⟩ := h
  have hsum := howned.places t
  omega

lemma State.Placed.tally_le (h : s.Placed) (task : ℕ) :
    tally (ofTask task) s.released ≤ tally (ofTask task) s.added :=
  tally_le_of_count _ h.count_le

/-- A reference that a thread has is still to be released. -/
lemma State.Placed.tally_lt (h : s.Placed) (hi : s.threads[i]? = some p) {t : Added}
    (ht : carry t p = 1) :
    tally (ofTask t.task) s.released + 1 ≤ tally (ofTask t.task) s.added := by
  obtain ⟨stack, chains, howned⟩ := h
  have hle := le_tally (carry t) hi
  have hcount : ∀ t', (t :: s.released).count t' ≤ s.added.count t' := by
    intro t'
    have hsum := howned.places t'
    rw [List.count_cons]
    split
    next heq =>
      obtain rfl : t = t' := by simpa using heq
      omega
    next => omega
  have htally := tally_le_of_count (ofTask t.task) hcount
  rw [tally_cons, ofTask, if_pos rfl] at htally
  omega

/-- All calls have returned and everything is released. -/
lemma State.Placed.released_of_idle (h : s.Placed) (hidle : s.Idle) (hhead : s.head = none)
    (t : Added) : s.released.count t = s.added.count t := by
  obtain ⟨stack, chains, howned⟩ := h
  obtain ⟨rfl, hnil⟩ := howned.nil_of_idle hidle hhead
  have hcarry : tally (carry t) s.threads = 0 :=
    tally_eq_zero.mpr fun q hq => by rw [hidle q hq]; rfl
  have hqueued : tally (fun c => tally (queued t) c) chains = 0 :=
    tally_eq_zero.mpr fun c hc => by rw [hnil c hc]; rfl
  have hsum := howned.places t
  rw [hcarry, hqueued, tally_nil] at hsum
  omega

/-- Each release takes back what an addition counted. -/
lemma counted_step {b : Label E} (hwaited : s.Waited) (hawaited : s.Awaited) (hplaced : s.Placed)
    (h : s.Counted) (hstep : step s b = some s') : s'.Counted := by
  cases steps hstep with
  | fork | doneWaiting => exact h
  | add i o t hi =>
    intro task
    have hsum := h task
    show Function.update s.refCount t.task (s.refCount t.task + 1) task + _
      = _ + tally (ofTask task) (s.added ++ [t])
    rw [tally_append, tally_cons, tally_nil]
    by_cases htask : t.task = task
    · subst htask
      rw [Function.update_self, ofTask, if_pos rfl]
      show s.refCount t.task + 1 + tally (ofTask t.task) s.released = s.outside t.task + _
      omega
    · rw [Function.update_of_ne (Ne.symm htask), ofTask, if_neg htask]
      exact hsum
  | reset hidle hdone =>
    -- nothing is left in the list, so every task that was added has been released
    obtain ⟨-, hhead⟩ := head_eq_none hwaited hawaited hidle hdone
    intro task
    have hsum := h task
    have hrel := hplaced.released_of_idle hidle hhead
    have hle := tally_le_of_count (ofTask task) fun t => (hrel t).le
    have hge := tally_le_of_count (ofTask task) fun t => (hrel t).ge
    show s.refCount task + 0 = s.outside task + 0
    omega
  | retain k =>
    intro task
    have hsum := h task
    show Function.update s.refCount k (s.refCount k + 1) task + _
      = Function.update s.outside k (s.outside k + 1) task + _
    by_cases htask : task = k
    · subst htask
      rw [Function.update_self, Function.update_self]
      show _ + tally (ofTask task) s.released = _ + tally (ofTask task) s.added
      omega
    · rw [Function.update_of_ne htask, Function.update_of_ne htask]
      exact hsum
  | letGo k houtside =>
    intro task
    have hsum := h task
    have hle := hplaced.tally_le task
    show Function.update s.refCount k (s.refCount k - 1) task + _
      = Function.update s.outside k (s.outside k - 1) task + _
    by_cases htask : task = k
    · subst htask
      rw [Function.update_self, Function.update_self]
      show _ + tally (ofTask task) s.released = _ + tally (ofTask task) s.added
      omega
    · rw [Function.update_of_ne htask, Function.update_of_ne htask]
      exact hsum
  | @advance s₁ i a pt p hi hadvances =>
    obtain ⟨-, hadded, -, houtside⟩ := hadvances.frame
    intro task
    have hsum := h task
    show s₁.refCount task + tally (ofTask task) s₁.released
      = s₁.outside task + tally (ofTask task) s₁.added
    rw [hadded, houtside]
    rcases hadvances.refCount with ⟨hrefCount, hreleased⟩ | ⟨t, ht, hreleased, hrefCount⟩
    · rw [hrefCount, hreleased]
      exact hsum
    · -- the released one was added and not released before, so the count is not zero
      have hlt := hplaced.tally_lt hi ht
      rw [hrefCount, hreleased, tally_append, tally_cons, tally_nil]
      by_cases htask : t.task = task
      · subst htask
        rw [Function.update_self, ofTask, if_pos rfl]
        omega
      · rw [Function.update_of_ne (Ne.symm htask), ofTask, if_neg htask]
        exact hsum

/-! ## Runs in which no deleted node is written -/

variable {k : ℕ}

lemma called (h : Reaches step (init k) s) : s.Called :=
  h.invariant (called_init k) fun _ _ _ hs _ hstep => called_step hs hstep

lemma waited (h : Reaches step (init k) s) : s.Waited :=
  h.invariant (waited_init k) fun _ _ _ hs _ hstep => waited_step hs hstep

lemma awaited (h : Reaches step (init k) s) : s.Awaited :=
  h.invariant (awaited_init k) fun _ _ _ hs _ hstep => awaited_step hs hstep

lemma placed (h : RunsTo step Permitted (init k) s) : s.Placed := by
  have hknown : ∀ {t : State E}, RunsTo step Permitted (init k) t →
      t.Called ∧ t.Waited ∧ t.Awaited :=
    fun ht => ⟨called ht.reaches, waited ht.reaches, awaited ht.reaches⟩
  exact h.invariant_of hknown (placed_init k) fun _ _ _ hk hs hok hstep =>
    placed_step hk.1 hk.2.1 hk.2.2 hs hok hstep

lemma counted (h : RunsTo step Permitted (init k) s) : s.Counted := by
  have hknown : ∀ {t : State E}, RunsTo step Permitted (init k) t →
      t.Waited ∧ t.Awaited ∧ t.Placed :=
    fun ht => ⟨waited ht.reaches, awaited ht.reaches, placed ht⟩
  exact h.invariant_of hknown (fun _ => rfl) fun _ _ _ hk hs _ hstep =>
    counted_step hk.1 hk.2.1 hk.2.2 hs hstep

/-- **The reference count of a task does not wrap** while fewer than `2 ^ 32` references to it are held
outside or were added: the word has room for the count, and where a release decrements it comes to
zero as the count does. -/
theorem refCount_shows (h : RunsTo step Permitted (init k) s) {task : ℕ}
    (hfew : s.outside task + tally (ofTask task) s.added < 2 ^ 32) :
    s.refCount task < 2 ^ 32 ∧ ∀ c : BitVec 32, Shows c (s.refCount task) → 0 < s.refCount task →
      Shows (c - 1#32) (s.refCount task - 1) ∧ (0#32 = c - 1#32 ↔ 0 = s.refCount task - 1) := by
  have hcount := counted h task
  refine ⟨by omega, fun c hc hpos => ?_⟩
  exact ⟨hc.decrement hpos, hc.decrement_eq_zero_iff hpos⟩

/-- In such a run nobody reads a deleted node. -/
theorem node_not_deleted (h : RunsTo step Permitted (init k) s) {i : ℕ} {n : NodeRef}
    (hi : s.threads[i]? = some (some (.readNext n)) ∨
      ∃ t next, s.threads[i]? = some (some (.free t n next))) : ∃ node, s.node n = some node := by
  obtain ⟨stack, chains, howned⟩ := placed h
  rcases hi with hi | ⟨t, next, hi⟩
  · obtain ⟨c, hc, hhead⟩ := howned.chain hi
    cases c with
    | nil => cases hhead
    | cons x rest =>
      obtain rfl : x.1 = n := Option.some.inj hhead
      obtain ⟨o, node, hnode, -⟩ :=
        (howned.taken _ (List.mem_of_getElem? hc)).linked (List.mem_cons_self ..)
      exact ⟨node, node_of_assigned hnode⟩
  · obtain ⟨c, -, -, o, ⟨node, hnode, -⟩, -⟩ := howned.chain hi
    exact ⟨node, node_of_assigned hnode⟩

/-- **Every added task is released once, in time and with the failure.** In every state of a run
whose second writes are of nodes that their calls have made: when `doneWaiting` was called and all
calls have returned, the list is empty, the reference of every call of `add` has been released once,
and the tasks have the references that are held outside; nothing is released before `doneWaiting`
has cleared `m_waiting`; and if it was given an exception, `dependentTaskFailed` was called on every
task of which the reference is released. -/
theorem released_once (h : RunsTo step Permitted (init k) s) :
    (s.Idle → s.done ≠ none →
      s.head = none ∧ (∀ t ∈ s.added, s.released.count t = 1) ∧
        ∀ task, s.refCount task = s.outside task) ∧
    (∀ t, s.released.count t ≤ 1 ∧ (t ∈ s.released → t ∈ s.added)) ∧
    (s.waiting = true → s.released = []) ∧
    (∀ e, s.done = some (some e) → ∀ t ∈ s.released, (t, e) ∈ s.failed) := by
  have hcalled := called h.reaches
  have hwaited := waited h.reaches
  have hplaced := placed h
  refine ⟨fun hidle hdone => ?_, fun t => ⟨?_, fun ht => ?_⟩, fun hw => (hwaited.before hw).1,
    fun e he t ht => ?_⟩
  · obtain ⟨-, hhead⟩ := head_eq_none hwaited (awaited h.reaches) hidle hdone
    have hrel := hplaced.released_of_idle hidle hhead
    refine ⟨hhead, fun t ht => ?_, fun task => ?_⟩
    · rw [hrel t]
      have hpos := List.count_pos_iff.mpr ht
      have hone := hcalled.count_le t
      omega
    · have hsum := counted h task
      have hle := tally_le_of_count (ofTask task) fun t => (hrel t).le
      have hge := tally_le_of_count (ofTask task) fun t => (hrel t).ge
      omega
  · exact (hplaced.count_le t).trans (hcalled.count_le t)
  · have hpos := List.count_pos_iff.mpr ht
    exact List.count_pos_iff.mp (lt_of_lt_of_le hpos (hplaced.count_le t))
  · have hwaiting : s.waiting = false := by
      by_contra hno
      rw [(hwaited.before (by simpa using hno)).1] at ht
      cases ht
    have hexception := Option.some.inj ((hwaited.after hwaiting).symm.trans he)
    exact hwaited.released e hexception t ht

/-- `n` operations of thread `i`; a new node gets the address `a`. -/
def operations (i a n : ℕ) : List (Label ℕ) :=
  List.replicate n (.advance i a)

/-- Two calls of `add` and a failure; the cache grows, and a third call uses it. -/
def twoEpochs : List (Label ℕ) :=
  [.fork, .fork, .add 0 .holder 10 0] ++ operations 0 0 6 ++ [.add 0 .task 11 0] ++ operations 0 1 4 ++
    [.doneWaiting 1 (some 7)] ++ operations 1 0 11 ++ [.reset, .add 0 .holder 12 0] ++
    operations 0 0 6 ++ [.doneWaiting 1 none] ++ operations 1 0 7

theorem released_once_twoEpochs :
    ∃ s : State ℕ, execute step writesOwnNode (init 0) twoEpochs = some s ∧ s.Idle ∧
      s.head = none ∧ (∀ t ∈ s.added, s.released.count t = 1) ∧ s.added ≠ [] := by
  have hrun : ∃ s : State ℕ, execute step writesOwnNode (init 0) twoEpochs = some s ∧ s.Idle ∧
      s.done ≠ none ∧ s.added ≠ [] := by
    refine ⟨_, rfl, ?_, ?_, ?_⟩ <;> decide
  obtain ⟨s, hs, hidle, hdone, hadded⟩ := hrun
  have hmain := (released_once (.of_execute twoEpochs (fun _ _ h => h) hs)).1 hidle hdone
  exact ⟨s, hs, hidle, hmain.1, hmain.2.1, hadded⟩

/-- Thread 0 adds the node 0 to the empty list and is delayed before it writes it for the second
time. -/
def firstAdd : List (Label ℕ) :=
  [.fork, .fork, .fork, .fork, .add 0 .holder 10 0] ++ operations 0 0 4

/-- Threads 1 and 2 have called `add` and found `m_waiting` set when thread 3 calls `doneWaiting`,
which deletes the node 0. -/
def deleteNode : List (Label ℕ) :=
  [.add 1 .holder 11 0] ++ operations 1 0 1 ++ [.add 2 .holder 12 0] ++ operations 2 0 1 ++
    [.doneWaiting 3 none] ++ operations 3 0 7

/-- Thread 2 adds the node 1, and thread 1 adds a new node 0 in front of it. -/
def reuseNode : List (Label ℕ) :=
  operations 2 1 1 ++ operations 2 0 2 ++ operations 1 0 3

/-- Thread 0 writes the node 0, announces the list, which now ends there, and thread 2 finds nothing
to announce. -/
def cutList : List (Label ℕ) :=
  operations 0 0 7 ++ operations 2 0 3

/-- **An added task can be lost.** The task of thread 2 is behind the node that thread 0 has cut
off. -/
theorem added_task_lost :
    ¬ ∀ (k : ℕ) (s : State ℕ), Reaches step (init k) s → s.Idle → s.done ≠ none →
      s.head = none ∧ ∀ t ∈ s.added, s.released.count t = 1 := by
  have hrun : ∃ s : State ℕ, executeAll step (init 0)
        (firstAdd ++ deleteNode ++ reuseNode ++ cutList) = some s ∧ s.Idle ∧ s.done ≠ none ∧
      ∃ t ∈ s.added, s.released.count t = 0 := by
    refine ⟨_, rfl, ?_, ?_, ⟨2, 12, 0⟩, ?_, ?_⟩ <;> decide
  obtain ⟨s, hs, hidle, hdone, t, ht, hnone⟩ := hrun
  intro hall
  have hone := (hall 0 s (.of_executeAll _ hs) hidle hdone).2 t ht
  omega

end UnifyPrototype.WaitingTaskList
