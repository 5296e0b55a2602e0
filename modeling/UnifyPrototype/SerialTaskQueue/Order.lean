import Mathlib.Data.List.Infix
import Mathlib.Data.List.Nodup
import UnifyPrototype.SerialTaskQueue.Wakeup

/-!
# One task at a time, in the order of the pushes

The queue records which tasks were pushed, popped and begun. The popped ones are an initial part
of the pushed ones because `m_tasks` is a FIFO, and the begun ones are an initial part of the
popped ones because the owner of the chosen flag holds at most one task that has not begun.
-/

namespace UnifyPrototype.SerialTaskQueue

open UnifyPrototype.Utils

variable {Q α : Type} [DecidableEq Q] {s s' : State Q α} {q : Q}

/-! ## The queue is a FIFO -/

/-- What was pushed is what was popped, followed by what is still in `m_tasks`. -/
def Queue.Fifo (m : Queue α) : Prop :=
  m.popped ++ m.tasks = m.pushed

/-- An operation appends to what was pushed and takes from its front. -/
lemma fifo_step {m : Queue α} {pt : Point α} {r : Result α} (h : pt.step m = some r)
    (hm : m.Fifo) : r.queue.Fifo := by
  unfold Queue.Fifo at hm ⊢
  cases operation h with
  | push t => rw [← hm, List.append_assoc]
  | pop c htasks =>
    rw [htasks] at hm
    rw [← hm, List.append_assoc]
    rfl
  | _ => exact hm

/-- In every state what was popped and what waits is what was pushed. -/
theorem fifo (h : Reachable s) (q : Q) : (s.queue q).Fifo := by
  refine h.invariant (I := fun s => (s.queue q).Fifo) rfl fun s a s' ih _ hstep => ?_
  cases step_at q hstep with
  | elsewhere hq _ => rwa [hq]
  | entered op hq _ _ => rwa [hq]
  | moved i th pt r _ _ _ _ hr hq _ => rw [hq]; exact fifo_step hr ih
  | finished i threw g t _ _ _ hq _ => rwa [hq]

/-! ## Every object is pushed once -/

/-- Whether the operation is to push the object `k`. -/
def Point.pushes (k : ℕ) : Point α → ℕ
  | .push t => if t.id = k then 1 else 0
  | _ => 0

/-- Object `k` is about to be pushed or was pushed at most once, and not at all before it
exists. -/
def State.Fresh (s : State Q α) (q : Q) (k : ℕ) : Prop :=
  s.count (Point.pushes k) q + ((s.queue q).pushed.map QueuedTask.id).count k
    ≤ if k < s.nextId then 1 else 0

/-- A push becomes an entry of what was pushed. -/
lemma pushes_step {m : Queue α} {pt : Point α} {r : Result α} (k : ℕ) (h : pt.step m = some r) :
    r.weight (Point.pushes k) + (r.queue.pushed.map QueuedTask.id).count k
      = pt.pushes k + (m.pushed.map QueuedTask.id).count k := by
  cases operation h with
  | push t => simp [Result.weight, Point.pushes, List.count_singleton, Nat.add_comm]
  | _ => simp [Result.weight, Point.pushes]

/-- Every task that is pushed has its own number. -/
theorem fresh (h : Reachable s) (q : Q) (k : ℕ) : s.Fresh q k := by
  refine h.invariant (I := fun s => s.Fresh q k) (by simp [State.Fresh, State.count, State.points])
    fun s a s' ih _ hstep => ?_
  have hid := nextId_le hstep
  unfold State.Fresh at ih ⊢
  have hmono : (if k < s.nextId then 1 else 0) ≤ if k < s'.nextId then 1 else 0 := by
    split_ifs <;> omega
  cases step_at q hstep with
  | elsewhere hq hc => rw [hc, hq]; omega
  | entered op hq hnext hc =>
    rw [hc, hq]
    have hentry : (op.entry s.nextId).pushes k ≤ if s.nextId = k then 1 else 0 := by
      cases op <;> simp [Op.entry, Point.pushes]
    rw [hnext] at hmono ⊢
    split_ifs at * <;> omega
  | moved i th pt r _ _ _ _ hr hq hc =>
    have hmove := pushes_step k hr
    have hk := hc (Point.pushes k)
    rw [hq]
    omega
  | finished i threw g t _ _ _ hq hc =>
    have := hc (Point.pushes k)
    simp only [Point.pushes] at this
    rw [hq]
    omega

/-- No object is pushed twice. -/
lemma pushed_nodup (h : Reachable s) (q : Q) : (s.queue q).pushed.Nodup := by
  refine List.Nodup.of_map QueuedTask.id (List.nodup_iff_count_le_one.mpr fun k => ?_)
  have hk := fresh h q k
  unfold State.Fresh at hk
  split_ifs at hk <;> omega

/-! ## The task in hand -/

/-- The popped task that has not begun to execute, if the operation is about one. -/
def Point.hand : Point α → Option (QueuedTask α)
  | .pick _ (.unlockPicking (some t)) | .spawn _ t | .waiting t | .loop _ t => some t
  | _ => none

/-- Holds a task that has not begun. -/
def Point.holds (pt : Point α) : ℕ :=
  if pt.hand.isSome then 1 else 0

/-- What an operation does to the records of a queue. -/
inductive LogStep (m : Queue α) (pt : Point α) (r : Result α) : Prop
  /-- It passes on the task in hand, if there is one. -/
  | same (hpopped : r.queue.popped = m.popped) (hbegun : r.queue.begun = m.begun)
      (hhand : ∀ p ∈ r.points, p.hand = none ∨ p.hand = pt.hand)
      (hholds : r.weight Point.holds = pt.holds)
  /-- It pops a task. -/
  | pop (c : Caller) (t : QueuedTask α) (hpt : pt = .pick c .tryPop)
      (hpopped : r.queue.popped = m.popped ++ [t]) (hbegun : r.queue.begun = m.begun)
      (hpoints : r.points = [.pick c (.unlockPicking (some t))])
  /-- It begins to execute the task in hand. -/
  | start (g : ℕ) (t : QueuedTask α) (hpt : pt = .loop g t)
      (hpopped : r.queue.popped = m.popped) (hbegun : r.queue.begun = m.begun ++ [t])
      (hpoints : r.points = [.execute g t])

/-- What an operation writes to the record. -/
lemma log_step {m : Queue α} {pt : Point α} {r : Result α} (h : pt.step m = some r) :
    LogStep m pt r := by
  cases operation h with
  | pop c htasks => exact .pop c _ rfl rfl rfl rfl
  | loop g t => exact .start g t rfl rfl rfl rfl
  | _ => exact .same rfl rfl (by simp [Result.points, Point.hand]) rfl

/-- The begun tasks are an initial part of the popped ones; what is missing is in hand. -/
structure State.InOrder (s : State Q α) (q : Q) : Prop where
  begun_popped : (s.queue q).begun <+: (s.queue q).popped
  length_popped : (s.queue q).popped.length
    = (s.queue q).begun.length + s.count Point.holds q
  hand_last : ∀ pt ∈ s.points q, ∀ t, pt.hand = some t → (s.queue q).popped.getLast? = some t

/-- Owns the flag without holding a task that has not begun. -/
def Point.ownsOnly (pt : Point α) : ℕ :=
  pt.owns - pt.holds

lemma ownsOnly_add_holds (pt : Point α) : pt.ownsOnly + pt.holds ≤ pt.owns := by
  rcases pt with _ | _ | _ | ⟨c, _ | _ | _ | _ | _ | _ | t⟩ | _ | _ | _ | _ | _ <;>
    simp [Point.ownsOnly, Point.owns, Pick.owns, Point.holds, Point.hand]

/-- While an owner of the flag has no task in hand, nobody has one. -/
lemma holds_eq_zero (h : Reachable s) (pt : Point α) (hpt : pt.ownsOnly = 1)
    (hmem : pt ∈ s.points q) : s.count Point.holds q = 0 :=
  count_eq_zero ownsOnly_add_holds (owns_le_one h q) pt hpt hmem

/-- If no thread holds a popped task, none has one in hand. -/
lemma hand_eq_none_of_holds (h : s.count Point.holds q = 0) :
    ∀ pt ∈ s.points q, pt.hand = none := by
  intro pt hpt
  have := tally_eq_zero.mp h pt hpt
  simpa [Point.holds] using this

/-- The records after a pop. -/
lemma inOrder_pop (hs : Reachable s) (ih : s.InOrder q) {c : Caller} {t : QueuedTask α}
    {r : Result α} (hmem : .pick c .tryPop ∈ s.points q)
    (hpopped : r.queue.popped = (s.queue q).popped ++ [t])
    (hbegun : r.queue.begun = (s.queue q).begun)
    (hpoints : r.points = [.pick c (.unlockPicking (some t))]) (hq : s'.queue q = r.queue)
    (hc : ∀ w, s'.count w q + w (.pick c .tryPop) = s.count w q + r.weight w) :
    s'.InOrder q := by
  have hzero := holds_eq_zero hs (.pick c .tryPop) rfl hmem
  have hholds := hc Point.holds
  rw [Result.weight_eq_tally, hpoints] at hholds
  simp only [Point.holds, Point.hand, tally_cons, tally_nil, Option.isSome_none,
    Option.isSome_some] at hholds
  refine ⟨?_, ?_, ?_⟩
  · rw [hq, hpopped, hbegun]
    exact ih.begun_popped.trans (List.prefix_append _ _)
  · rw [hq, hpopped, hbegun, List.length_append, ih.length_popped]
    simp at hholds ⊢
    omega
  · refine forall_points_of_count (s := s) _ (fun p hp u hu => ?_) (fun p hp u hu => ?_)
      (count_le_of_moved hc)
    · rw [hand_eq_none_of_holds hzero p hp] at hu
      cases hu
    · rw [hpoints] at hp
      obtain rfl := List.mem_singleton.mp hp
      rw [hq, hpopped, List.getLast?_concat]
      exact hu

/-- The records after a task has begun. -/
lemma inOrder_start (hs : Reachable s) (ih : s.InOrder q) {g : ℕ} {t : QueuedTask α}
    {r : Result α} (hmem : Point.loop g t ∈ s.points q)
    (hpopped : r.queue.popped = (s.queue q).popped)
    (hbegun : r.queue.begun = (s.queue q).begun ++ [t])
    (hpoints : r.points = [.execute g t]) (hq : s'.queue q = r.queue)
    (hc : ∀ w, s'.count w q + w (.loop g t) = s.count w q + r.weight w) : s'.InOrder q := by
  have hone : s.count Point.holds q ≤ 1 :=
    (count_mono (fun pt => (Nat.le_add_left _ _).trans (ownsOnly_add_holds pt)) s q).trans
      (owns_le_one hs q)
  have hle : (1 : ℕ) ≤ s.count Point.holds q := le_count Point.holds hmem
  have hholds := hc Point.holds
  rw [Result.weight_eq_tally, hpoints] at hholds
  simp only [Point.holds, Point.hand, tally_cons, tally_nil, Option.isSome_none,
    Option.isSome_some] at hholds
  have hlen := ih.length_popped
  -- the only popped task that is not begun is the last one, and that is `t`
  obtain ⟨rest, hrest⟩ := ih.begun_popped
  have hrest_len : rest.length = 1 := by
    rw [← hrest, List.length_append] at hlen
    omega
  obtain ⟨u, rfl⟩ := List.length_eq_one_iff.mp hrest_len
  have hlast := ih.hand_last _ hmem t rfl
  rw [← hrest, List.getLast?_concat] at hlast
  obtain rfl := Option.some.inj hlast
  refine ⟨?_, ?_, ?_⟩
  · rw [hq, hpopped, hbegun, hrest]
  · rw [hq, hpopped, hbegun, List.length_append, hlen]
    simp at hholds ⊢
    omega
  · refine forall_points_of_count (s := s) _ (fun p hp v hv => ?_) (fun p hp v hv => ?_)
      (count_le_of_moved hc)
    · rw [hq, hpopped]
      exact ih.hand_last p hp v hv
    · rw [hpoints] at hp
      obtain rfl := List.mem_singleton.mp hp
      cases hv

/-- The records are in order in every reachable state. -/
theorem inOrder (h : Reachable s) (q : Q) : s.InOrder q := by
  refine h.invariant_of (J := Reachable) (I := fun s => s.InOrder q) id
    ⟨List.prefix_rfl, rfl, by simp [State.points]⟩ fun s a s' hs ih _ hstep => ?_
  have hat := step_at q hstep
  cases hat with
  | elsewhere hq hc =>
    refine ⟨hq ▸ ih.begun_popped, by rw [hq, hc]; exact ih.length_popped, ?_⟩
    rw [hq]
    exact forall_points_of_count [] ih.hand_last (by simp) fun w => by simp [hc]
  | entered op hq _ hc =>
    -- at its entry a call has no task in its hand
    have hentry : (op.entry s.nextId).hand = none := by cases op <;> rfl
    refine ⟨hq ▸ ih.begun_popped, ?_, ?_⟩
    · rw [hq, hc, ih.length_popped]
      simp [Point.holds, hentry]
    · rw [hq]
      exact forall_points_of_count [op.entry s.nextId] ih.hand_last (by simp [hentry])
        fun w => by simp [hc]
  | moved i th pt r _ _ _ hmem hr hq hc =>
    cases log_step hr with
    | same hpopped hbegun hhand hholds =>
      refine ⟨?_, ?_, ?_⟩
      · rw [hq, hpopped, hbegun]
        exact ih.begun_popped
      · have := hc Point.holds
        rw [hq, hpopped, hbegun, ih.length_popped]
        omega
      · rw [hq, hpopped]
        refine forall_points_of_count _ ih.hand_last (fun p hp t ht => ?_) (count_le_of_moved hc)
        rcases hhand p hp with hnone | hsame
        · rw [hnone] at ht
          cases ht
        · exact ih.hand_last pt hmem t (hsame ▸ ht)
    | pop c t hpt hpopped hbegun hpoints =>
      subst hpt
      exact inOrder_pop hs ih hmem hpopped hbegun hpoints hq hc
    | start g t hpt hpopped hbegun hpoints =>
      subst hpt
      exact inOrder_start hs ih hmem hpopped hbegun hpoints hq hc
  | finished i threw g t _ _ _ hq hc =>
    have hholds : s'.count Point.holds q = s.count Point.holds q := hc Point.holds
    refine ⟨hq ▸ ih.begun_popped, by rw [hq, hholds]; exact ih.length_popped, ?_⟩
    rw [hq]
    refine forall_points_of_count [.finishedTask g] ih.hand_last (by simp [Point.hand])
      fun w => ?_
    have := hc w
    simp only [tally_cons, tally_nil]
    omega

/-! ## The result -/

/-- The task whose action is running, if the operation is inside one. -/
def Point.executing : Point α → List (QueuedTask α)
  | .execute _ t => [t]
  | _ => []

/-- The tasks of queue `q` whose `execute()` is in progress. -/
def State.executing (s : State Q α) (q : Q) : List (QueuedTask α) :=
  (s.points q).flatMap Point.executing

lemma length_unfinished_le (pt : Point α) : pt.unfinished.length ≤ pt.owns := by
  rcases pt with _ | _ | _ | ⟨c, _ | _ | _ | _ | _ | _ | t⟩ | _ | _ | _ | _ | _ <;>
    simp [Point.unfinished, Point.owns, Pick.owns]

lemma length_executing_le (pt : Point α) : pt.executing.length ≤ pt.unfinished.length := by
  cases pt <;> simp [Point.executing, Point.unfinished]

/-- **One at a time, in order, at most once.** At most one task of a queue has been picked and has
not finished, so at most one is executing; no task begins twice, and the tasks that have begun are
the first ones that were pushed, in the order of the pushes. -/
theorem runs_one_at_a_time (h : Reachable s) (q : Q) :
    (s.unfinished q).length ≤ 1 ∧ (s.executing q).length ≤ 1 ∧
      (s.queue q).begun.Nodup ∧ (s.queue q).begun <+: (s.queue q).pushed := by
  have hunfinished : (s.unfinished q).length ≤ 1 := by
    rw [State.unfinished, length_flatMap_eq_tally]
    exact (count_mono length_unfinished_le s q).trans (owns_le_one h q)
  have hexecuting : (s.executing q).length ≤ (s.unfinished q).length := by
    rw [State.executing, State.unfinished, length_flatMap_eq_tally, length_flatMap_eq_tally]
    exact count_mono length_executing_le s q
  have hbegins : (s.queue q).begun <+: (s.queue q).pushed :=
    (inOrder h q).begun_popped.trans ⟨_, fifo h q⟩
  exact ⟨hunfinished, hexecuting.trans hunfinished, (pushed_nodup h q).sublist hbegins.sublist,
    hbegins⟩

/-- The functor of the first of two tasks is over, and that of the second one executes. -/
def secondBegun : List (Label Unit ℕ) :=
  pushTwice ++ List.replicate 2 (.advance 1) ++ [.finish 1 false] ++ List.replicate 7 (.advance 1)

/-- The second task begins when the first one has ended. -/
theorem runs_one_at_a_time_secondBegun :
    ∃ s : State Unit ℕ, executeAll step {} secondBegun = some s ∧ (s.queue ()).begun.length = 2 ∧
      (s.unfinished ()).length ≤ 1 ∧ (s.executing ()).length ≤ 1 ∧
      (s.queue ()).begun.Nodup ∧ (s.queue ()).begun <+: (s.queue ()).pushed := by
  have hrun : ∃ s : State Unit ℕ, executeAll step {} secondBegun = some s ∧
      (s.queue ()).begun.length = 2 := ⟨_, rfl, rfl⟩
  obtain ⟨s, hs, hbegun⟩ := hrun
  exact ⟨s, hs, hbegun, runs_one_at_a_time (.of_executeAll _ hs) ()⟩

end UnifyPrototype.SerialTaskQueue
