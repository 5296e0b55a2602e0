import UnifyPrototype.ThreadSafeOutputFileStream.Order
import UnifyPrototype.Utils.Threads

/-!
# Messages that are left behind

The last `try_pop` of the loop and the `store` after it are two operations. A call of `write` that
pushes in between and comes to its exchange before the `store` returns, and nobody is left to stream
its message. Without such an exchange somebody is always going to look at the queue again.
-/

namespace UnifyPrototype.ThreadSafeOutputFileStream

open UnifyPrototype.Utils

variable {s s' : State} {i : ℕ}

/-! ## The window -/

/-- The step is an exchange that comes after the last `try_pop` of the thread that streams and before
its `store`, while a message waits. -/
def State.ExchangeInWindow (s : State) : Label → Prop
  | .advance i => s.threads[i]? = some (some .compareExchange) ∧ some .store ∈ s.threads ∧
      s.waitingMessages ≠ []
  | _ => False

instance (s : State) (b : Label) : Decidable (s.ExchangeInWindow b) := by
  unfold State.ExchangeInWindow
  split <;> infer_instance

/-- The thread is going to look at the queue again. -/
def Point.Attends : Point → Prop
  | .compareExchange | .drain _ => True
  | .push _ | .store => False

/-- Somebody is going to look at the queue while a message waits, and it is not the destructor. -/
structure State.Attended (s : State) : Prop where
  attended : s.waitingMessages ≠ [] →
    ∃ (i : ℕ) (pt : Point), s.threads[i]? = some (some pt) ∧ pt.Attends
  destructor : s.destructor.inHand = []

/-- When no call of `write` is in progress, nobody attends, so nothing waits. -/
lemma State.Attended.waitingMessages_eq (h : s.Attended) (hidle : s.Idle) :
    s.waitingMessages = [] := by
  by_contra hne
  obtain ⟨i, pt, hi, -⟩ := h.attended hne
  cases hidle _ (List.mem_of_getElem? hi)

/-- A thread that is at a point keeps it while another one moves. -/
lemma getElem?_set_of_ne_point {threads : List (Option Point)} {p q : Option Point} {j : ℕ}
    {pt : Point} (hi : threads[i]? = some p) (hj : threads[j]? = some (some pt))
    (hne : p ≠ some pt) : (threads.set i q)[j]? = some (some pt) := by
  have hij : i ≠ j := by
    rintro rfl
    exact hne (Option.some.inj (hi.symm.trans hj))
  rw [List.getElem?_set_ne hij, hj]

/-- Whoever attends still does after the thread `i` has moved from a point that does not. -/
lemma attended_of_set {p q : Option Point} (h : s.Attended) (hi : s.threads[i]? = some p)
    (hp : ∀ pt, p = some pt → ¬ pt.Attends) (hthreads : s'.threads = s.threads.set i q)
    (hmessages : s'.waitingMessages = s.waitingMessages)
    (hdestructor : s'.destructor = s.destructor) : s'.Attended := by
  refine ⟨fun hne => ?_, hdestructor ▸ h.destructor⟩
  rw [hmessages] at hne
  obtain ⟨j, pt, hj, hattends⟩ := h.attended hne
  refine ⟨j, pt, ?_, hattends⟩
  rw [hthreads]
  exact getElem?_set_of_ne_point hi hj fun heq => hp pt heq hattends

/-- The thread `i` itself attends afterwards. -/
lemma attended_of_attends {pt : Point} {p : Option Point} (h : s.Attended)
    (hi : s.threads[i]? = some p) (hpt : pt.Attends)
    (hthreads : s'.threads = s.threads.set i (some pt))
    (hdestructor : s'.destructor = s.destructor) : s'.Attended := by
  refine ⟨fun _ => ⟨i, pt, ?_, hpt⟩, hdestructor ▸ h.destructor⟩
  rw [hthreads, List.getElem?_set_self (List.getElem?_eq_some_iff.mp hi).1]

/-! ## The steps -/

/-- While the flag is set and no thread is before its `store`, the thread that has set it is in the
loop. -/
lemma drains_of_logged (h : s.InOrder) (hflag : s.msgBeingLogged = true)
    (hstore : some .store ∉ s.threads) :
    ∃ (j : ℕ) (d : Drain), s.threads[j]? = some (some (.drain d)) := by
  have hlogging := h.logging
  rw [if_pos hflag] at hlogging
  obtain ⟨p, hp, hpos⟩ : ∃ p ∈ s.threads, logging p ≠ 0 := by
    by_contra hnone
    have hzero : tally logging s.threads = 0 := by
      refine tally_eq_zero.mpr fun p hp => ?_
      by_contra hne
      exact hnone ⟨p, hp, hne⟩
    omega
  obtain ⟨j, hj⟩ := List.getElem?_of_mem hp
  -- the call that holds the flag is in its loop or before the `store`
  rcases p with _ | pt
  · exact absurd rfl hpos
  cases pt with
  | push msg => exact absurd rfl hpos
  | compareExchange => exact absurd rfl hpos
  | drain d => exact ⟨j, d, hj⟩
  | store => exact absurd hp hstore

/-- The messages stay attended, unless the operation is an exchange in the window. -/
lemma attended_advance {pt : Point} (horder : s.InOrder) (h : s.Attended)
    (hi : s.threads[i]? = some (some pt)) (hok : ¬ s.ExchangeInWindow (.advance i)) :
    State.Attended { (pt.step s).1 with threads := s.threads.set i (pt.step s).2 } := by
  cases pt with
  -- what is pushed is attended by the exchange that follows
  | push msg =>
    have hattends : Point.Attends .compareExchange := trivial
    exact attended_of_attends h hi hattends rfl rfl
  | compareExchange =>
    cases hflag : s.msgBeingLogged with
    | true =>
      simp only [Point.step, hflag, if_true]
      refine ⟨fun hne => ?_, h.destructor⟩
      -- the exchange fails outside the window, so the other thread is still in its loop
      have hstore : some .store ∉ s.threads := fun hmem => hok ⟨hi, hmem, hne⟩
      obtain ⟨j, d, hj⟩ := drains_of_logged horder hflag hstore
      exact ⟨j, _, getElem?_set_of_ne_point hi hj (by simp), trivial⟩
    | false =>
      simp only [Point.step, hflag, Bool.false_eq_true, if_false]
      have hattends : Point.Attends (.drain .tryPop) := trivial
      exact attended_of_attends h hi hattends rfl rfl
  | drain d =>
    obtain ⟨-, -, hdestructor, -, -⟩ := by simpa only [Prod.mk.injEq] using drain_same s d
    cases hnext : (d.step s).2 with
    | some d' =>
      have hattends : Point.Attends (.drain d') := trivial
      refine attended_of_attends h hi hattends ?_ hdestructor
      simp only [Point.step, hnext, Option.map_some, Option.getD_some]
    | none =>
      -- the loop ends with an empty queue
      refine ⟨fun hne => absurd (waitingMessages_of_drained hnext) hne, ?_⟩
      show (d.step s).1.destructor.inHand = []
      rw [hdestructor]
      exact h.destructor
  -- nobody is attended by the `store`
  | store =>
    refine attended_of_set h hi ?_ rfl rfl rfl
    rintro pt hpt
    obtain rfl := Option.some.inj hpt
    exact id

/-- The destructor finds nothing to stream. -/
lemma attended_destructor {r : State × Destructor} (horder : s.InOrder) (h : s.Attended)
    (hstep : s.destructor.step s = some r) : State.Attended { r.1 with destructor := r.2 } := by
  cases hdestructor : s.destructor with
  | notCalled => simp [hdestructor, Destructor.step] at hstep
  | returned => simp [hdestructor, Destructor.step] at hstep
  | close =>
    simp only [hdestructor, Destructor.step, Option.some.injEq] at hstep
    subst hstep
    exact ⟨h.attended, rfl⟩
  -- no call is in progress, so the queue is empty
  | drain d =>
    simp only [hdestructor, Destructor.step, Option.some.injEq] at hstep
    subst hstep
    have hempty := h.waitingMessages_eq (horder.idle (by simp [hdestructor]))
    have hhand := h.destructor
    rw [hdestructor] at hhand
    cases d with
    | tryPop =>
      simp only [Drain.step, hempty]
      exact ⟨fun hne => absurd rfl hne, rfl⟩
    | stream tmp =>
      obtain rfl : tmp = [] := hhand
      exact ⟨h.attended, rfl⟩

/-- So they do in every step. -/
lemma attended_step {b : Label} (horder : s.InOrder) (h : s.Attended)
    (hok : ¬ s.ExchangeInWindow b) (hstep : step s b = some s') : s'.Attended := by
  cases b with
  | fork =>
    obtain rfl := Option.some.inj hstep
    refine ⟨fun hne => ?_, h.destructor⟩
    obtain ⟨i, pt, hi, hattends⟩ := h.attended hne
    refine ⟨i, pt, ?_, hattends⟩
    rw [List.getElem?_append_left (List.getElem?_eq_some_iff.mp hi).1, hi]
  | write i msg =>
    simp only [step] at hstep
    split at hstep
    next hcall =>
      obtain rfl := Option.some.inj hstep
      exact attended_of_set h hcall.2 (by simp) rfl rfl rfl
    next => cases hstep
  | advance i =>
    simp only [step] at hstep
    split at hstep
    next pt hi =>
      obtain rfl := Option.some.inj hstep
      exact attended_advance horder h hi hok
    next => cases hstep
  | destroy =>
    simp only [step] at hstep
    split at hstep
    next hcall =>
      obtain rfl := Option.some.inj hstep
      exact ⟨h.attended, rfl⟩
    next => cases hstep
  | advanceDestructor =>
    obtain ⟨r, hr, rfl⟩ := Option.map_eq_some_iff.mp hstep
    exact attended_destructor horder h hr

/-- They are attended along runs without such an exchange. -/
lemma attended (h : RunsTo step (fun s b => ¬ s.ExchangeInWindow b) {} s) : s.Attended := by
  refine h.invariant_of (fun ht => inOrder ht.reaches) ⟨fun hne => absurd rfl hne, rfl⟩ ?_
  exact fun _ _ _ horder hs hok hstep => attended_step horder hs hok hstep

/-! ## After an exchange in the window -/

/-- The operations that a call of `write` has still to make if its exchange fails. -/
def pending : Option Point → ℕ
  | some (.push _) => 2
  | some .compareExchange => 1
  | _ => 0

/-- The other calls of `write` may return, one after the other, before the `store`; then nobody is
left. -/
lemma strands (n : ℕ) (horder : s.InOrder) (hn : tally pending s.threads = n) {j : ℕ}
    (hstore : s.threads[j]? = some (some .store)) (hne : s.waitingMessages ≠ []) :
    ∃ t, Reaches step s t ∧ t.Idle ∧ t.waitingMessages ≠ [] ∧ t.written = s.written := by
  have hflag := horder.flag_of_store hstore
  -- on the operations left to the other calls, each of which finds the flag set
  induction n using Nat.strong_induction_on generalizing s with
  | _ n ih =>
    by_cases hpending : ∃ (i : ℕ) (pt : Point), s.threads[i]? = some (some pt) ∧ 0 < pending (some pt)
    · obtain ⟨i, pt, hi, hpos⟩ := hpending
      have hstep : step s (.advance i)
          = some { (pt.step s).1 with threads := s.threads.set i (pt.step s).2 } := by
        simp only [step, hi]
      have hset := tally_set pending (pt.step s).2 hi
      cases pt with
      | push msg =>
        obtain ⟨t, hreaches, hidle, hleft, hwritten⟩ := ih _ (by
            rw [← hn]
            show tally pending (s.threads.set i (some .compareExchange)) < _
            have hbefore : pending (some (.push msg)) = 2 := rfl
            have hafter : pending (some .compareExchange) = 1 := rfl
            simp only [Point.step, hbefore, hafter] at hset
            omega)
          (inOrder_advance horder hi) rfl (getElem?_set_of_ne_point hi hstore (by simp))
          (by simp [Point.step]) hflag
        exact ⟨t, (RunsTo.tail .refl trivial hstep).trans hreaches, hidle, hleft, hwritten⟩
      | compareExchange =>
        have hfails : Point.compareExchange.step s = (s, none) := by simp [Point.step, hflag]
        have horder' := inOrder_advance horder hi
        rw [hfails] at hstep hset horder'
        dsimp only at hset
        obtain ⟨t, hreaches, hidle, hleft, hwritten⟩ := ih _ (by
            rw [← hn]
            show tally pending (s.threads.set i none) < _
            have hbefore : pending (some .compareExchange) = 1 := rfl
            have hafter : pending none = 0 := rfl
            rw [hbefore, hafter] at hset
            omega)
          horder' rfl (getElem?_set_of_ne_point hi hstore (by simp)) hne hflag
        exact ⟨t, (RunsTo.tail .refl trivial hstep).trans hreaches, hidle, hleft, hwritten⟩
      | drain d => cases hpos
      | store => cases hpos
    · -- only the thread before its `store` is left
      have hstep : step s (.advance j)
          = some { s with msgBeingLogged := false, threads := s.threads.set j none } := by
        simp only [step, hstore, Point.step]
      refine ⟨_, .tail .refl trivial hstep, fun p hp => ?_, hne, rfl⟩
      by_contra hp'
      obtain ⟨pt, rfl⟩ := Option.ne_none_iff_exists'.mp hp'
      obtain ⟨i, hi⟩ := List.getElem?_of_mem hp
      have hlogs := tally_set logging none hstore
      have hle := le_tally logging hi
      have hone := horder.logging_le
      have hbefore : logging (some .store) = 1 := rfl
      have hafter : logging none = 0 := rfl
      have hzero : logging (some pt) = 0 := by
        dsimp only at hle
        omega
      rcases getElem?_goto hi with ⟨-, hq⟩ | ⟨-, hi'⟩
      · cases hq
      · cases pt with
        | push msg => exact hpending ⟨i, _, hi', Nat.succ_pos 1⟩
        | compareExchange => exact hpending ⟨i, _, hi', Nat.succ_pos 0⟩
        | drain d => cases hzero
        | store => cases hzero

/-! ## No message is stranded -/

/-- **No message is stranded unless an exchange comes into the window.** In every run without such an
exchange, whenever no call of `write` is in progress the queue is empty and the file has all messages.
From every such exchange on, the calls that are in progress may return and leave a message behind. -/
theorem none_stranded (s : State) :
    (RunsTo step (fun s b => ¬ s.ExchangeInWindow b) {} s → s.Idle →
      s.waitingMessages = [] ∧ s.file = s.pushed.flatten ∧ s.pushed.Perm s.written) ∧
    (∀ b s', Reachable s → s.ExchangeInWindow b → step s b = some s' →
      ∃ t, Reaches step s' t ∧ t.Idle ∧ t.waitingMessages ≠ [] ∧ t.written = s.written) := by
  constructor
  · intro h hidle
    have horder := inOrder h.reaches
    have hattended := attended h
    have hempty := hattended.waitingMessages_eq hidle
    have hcontent := horder.content
    rw [flatMap_eq_nil_of_idle rfl hidle, hattended.destructor, hempty] at hcontent
    exact ⟨hempty, by simpa using hcontent, horder.pushed_perm hidle⟩
  · intro b s' h hwindow hstep
    have horder := inOrder h
    cases b with
    | advance i =>
      obtain ⟨hi, hmem, hne⟩ := hwindow
      obtain ⟨j, hj⟩ := List.getElem?_of_mem hmem
      have hflag := horder.flag_of_store hj
      have hreturns : step s (.advance i) = some { s with threads := s.threads.set i none } := by
        simp [step, hi, Point.step, hflag]
      obtain rfl := Option.some.inj (hreturns.symm.trans hstep)
      exact strands _ (inOrder_step horder hstep) rfl
        (getElem?_set_of_ne_point hi hj (by simp)) hne
    | _ => exact hwindow.elim

/-- Thread 1 finds the flag set while thread 0 is in its loop, and thread 0 streams both messages. -/
def streamedForBoth : List Label :=
  [.fork, .fork, .write 0 ['a'], .advance 0, .advance 0, .write 1 ['b'], .advance 1, .advance 1]
    ++ List.replicate 8 (.advance 0)

theorem none_stranded_streamedForBoth :
    ∃ s : State, s.written = [['a'], ['b']] ∧ s.waitingMessages = [] ∧ s.file = s.pushed.flatten := by
  have hrun : ∃ s, execute step (fun s b => decide (¬ State.ExchangeInWindow s b)) {}
      streamedForBoth = some s ∧ s.Idle ∧ s.written = [['a'], ['b']] := ⟨_, rfl, by decide, rfl⟩
  obtain ⟨s, hs, hidle, hwritten⟩ := hrun
  have hpermitted : RunsTo step (fun s b => ¬ State.ExchangeInWindow s b) {} s :=
    .of_execute _ (fun _ _ hb => of_decide_eq_true hb) hs
  obtain ⟨hempty, hfile, -⟩ := (none_stranded s).1 hpermitted hidle
  exact ⟨s, hwritten, hempty, hfile⟩

/-- Thread 0 streams `a`; after its last `try_pop` thread 1 pushes `b` and finds the flag set, and
then thread 0 clears it. -/
def leftBehind : List Label :=
  [.fork, .fork, .write 0 ['a']] ++ List.replicate 6 (.advance 0)
    ++ [.write 1 ['b'], .advance 1, .advance 1, .advance 0]

/-- The message `b` stays in the queue although both calls have returned. -/
theorem leftBehind_strands : ¬ ∀ s, Reachable s → s.Idle → s.waitingMessages = [] := by
  intro hall
  have hrun : ∃ s, executeAll step {} leftBehind = some s ∧ s.Idle ∧
      s.waitingMessages = [['b']] := ⟨_, rfl, by decide, rfl⟩
  obtain ⟨s, hs, hidle, hmessages⟩ := hrun
  have hempty := hall s (.of_executeAll _ hs) hidle
  rw [hmessages] at hempty
  cases hempty

end UnifyPrototype.ThreadSafeOutputFileStream
