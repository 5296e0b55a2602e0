import UnifyPrototype.ThreadSafeOutputFileStream.Order
import UnifyPrototype.Utils.Cost

/-!
# What the file shows at every moment

A message that a call of `write` leaves to another thread may stay in the queue. What is in the file
is still the beginning of all messages in the order of their pushes, and a call that streams leaves
nothing behind of what was pushed before its last `try_pop`. No call waits for another one.
-/

namespace UnifyPrototype.ThreadSafeOutputFileStream

open UnifyPrototype.Utils

variable {s s' t : State} {i : ℕ} {b : Label}

/-! ## The file grows -/

/-- A drain only appends to the file. -/
lemma drain_file (s : State) (d : Drain) : s.file <+: (d.step s).1.file := by
  cases d with
  | tryPop => cases hmessages : s.waitingMessages <;> simp [Drain.step, hmessages]
  | stream tmp => cases tmp <;> simp [Drain.step]

/-- So does every operation of a write. -/
lemma point_file (s : State) (p : Point) : s.file <+: (p.step s).1.file := by
  cases p with
  | push msg => exact List.prefix_refl _
  | compareExchange =>
    simp only [Point.step]
    split
    · exact List.prefix_refl _
    · exact List.prefix_refl _
  | drain d => exact drain_file s d
  | store => exact List.prefix_refl _

/-- So does every step. -/
lemma file_step (hstep : step s b = some s') : s.file <+: s'.file := by
  cases b with
  | fork =>
    obtain rfl := Option.some.inj hstep
    exact List.prefix_refl _
  | write i msg =>
    simp only [step] at hstep
    split at hstep
    next =>
      obtain rfl := Option.some.inj hstep
      exact List.prefix_refl _
    next => cases hstep
  | advance i =>
    simp only [step] at hstep
    split at hstep
    next p hi =>
      obtain rfl := Option.some.inj hstep
      exact point_file s p
    next => cases hstep
  | destroy =>
    simp only [step] at hstep
    split at hstep
    next =>
      obtain rfl := Option.some.inj hstep
      exact List.prefix_refl _
    next => cases hstep
  | advanceDestructor =>
    obtain ⟨r, hr, rfl⟩ := Option.map_eq_some_iff.mp hstep
    cases hd : s.destructor with
    | notCalled | returned => simp [hd, Destructor.step] at hr
    | close =>
      simp only [hd, Destructor.step, Option.some.injEq] at hr
      subst hr
      exact List.prefix_refl _
    | drain d =>
      simp only [hd, Destructor.step, Option.some.injEq] at hr
      subst hr
      exact drain_file s d

/-- Along a run the file grows at its end. -/
lemma file_grows (hrun : Reaches step s t) : s.file <+: t.file :=
  hrun.invariant (I := fun u => s.file <+: u.file) (List.prefix_refl _)
    fun _ _ _ hu _ hstep => hu.trans (file_step hstep)

/-- What is in the file was pushed, in that order. -/
lemma State.InOrder.file_prefix (h : s.InOrder) : s.file <+: s.pushed.flatten := by
  rw [← h.content, List.append_assoc, List.append_assoc]
  exact List.prefix_append ..

/-- The thread that finds the queue empty has streamed all that was pushed. -/
lemma State.InOrder.file_eq (h : s.InOrder) (hi : s.threads[i]? = some (some (.drain .tryPop)))
    (hempty : s.waitingMessages = []) : s.file = s.pushed.flatten := by
  have hcontent := h.content
  have hhand : s.threads.flatMap inHand = [] := flatMap_inHand h.logging_le hi rfl
  rw [hempty, hhand, h.notCalled hi] at hcontent
  simpa [Destructor.inHand] using hcontent

/-! ## The work -/

/-- The operations of the loop that are left if no more messages come. -/
def Drain.remaining : Drain → ℕ
  | .tryPop => 2
  | .stream tmp => tmp.length + 3

def Point.remaining : Point → ℕ
  | .push msg => msg.length + 6
  | .compareExchange => 3
  | .drain d => d.remaining
  | .store => 1

def Destructor.remaining : Destructor → ℕ
  | .notCalled | .returned => 0
  | .drain d => d.remaining
  | .close => 1

def left (p : Option Point) : ℕ :=
  p.elim 0 Point.remaining

/-- What a message in the queue has paid for: it is popped, streamed and done. -/
def streaming (msg : Message) : ℕ :=
  msg.length + 2

def State.potential (s : State) : ℕ :=
  tally left s.threads + s.destructor.remaining + tally streaming s.waitingMessages

/-- One for an operation of a call or of the destructor. -/
def operation (_ : State) : Label → ℕ
  | .advance _ | .advanceDestructor => 1
  | _ => 0

/-- What a call is paid. -/
def price : Label → ℕ
  | .write _ msg => msg.length + 6
  | .destroy => 2
  | _ => 0

/-- One operation of the loop; `after` is what comes behind it. -/
lemma drain_remaining (s : State) (d : Drain) (after : ℕ) (hafter : after = 1) :
    1 + (d.step s).2.elim after Drain.remaining + tally streaming (d.step s).1.waitingMessages
      ≤ d.remaining + tally streaming s.waitingMessages := by
  cases d with
  | tryPop =>
    cases hmessages : s.waitingMessages with
    | nil => simp [Drain.step, Drain.remaining, hmessages, hafter]
    | cons msg rest =>
      simp only [Drain.step, Drain.remaining, hmessages, Option.elim_some, tally_cons, streaming]
      omega
  | stream tmp =>
    cases tmp with
    | nil =>
      simp only [Drain.step, Drain.remaining, Option.elim_some, List.length_nil]
      omega
    | cons c tmp =>
      simp only [Drain.step, Drain.remaining, Option.elim_some, List.length_cons]
      omega

/-- Each operation of a write leaves less to do. -/
lemma point_remaining (s : State) (p : Point) :
    1 + left (p.step s).2 + tally streaming (p.step s).1.waitingMessages
      ≤ p.remaining + tally streaming s.waitingMessages := by
  cases p with
  | push msg =>
    simp only [Point.step, left, Point.remaining, Option.elim_some, tally_append, tally_cons,
      tally_nil, streaming]
    omega
  | compareExchange =>
    simp only [Point.step]
    split
    · simp [left, Point.remaining]
    · simp [left, Point.remaining, Drain.remaining]
  | drain d =>
    have hdrain := drain_remaining s d 1 rfl
    have hleft : left (Point.step s (.drain d)).2 = (d.step s).2.elim 1 Drain.remaining := by
      cases hd : (d.step s).2 <;> simp [Point.step, hd, left, Point.remaining]
    rw [hleft]
    exact hdrain
  | store => simp [Point.step, left, Point.remaining]

lemma point_destructor (s : State) (p : Point) : (p.step s).1.destructor = s.destructor := by
  cases p with
  | push msg => rfl
  | compareExchange =>
    simp only [Point.step]
    split <;> rfl
  | drain d => exact congrArg (·.2.2.1) (drain_same s d)
  | store => rfl

lemma potential_advance {p : Point} (hi : s.threads[i]? = some (some p)) :
    1 + State.potential { (p.step s).1 with threads := s.threads.set i (p.step s).2 }
      ≤ s.potential := by
  have hset := tally_set left (p.step s).2 hi
  have hpaid := point_remaining s p
  have hleft : left (some p) = p.remaining := rfl
  unfold State.potential
  simp only [point_destructor]
  omega

lemma potential_destructor {r : State × Destructor} (hr : s.destructor.step s = some r) :
    1 + State.potential { r.1 with destructor := r.2 } ≤ s.potential := by
  unfold State.potential
  cases hd : s.destructor with
  | notCalled | returned => simp [hd, Destructor.step] at hr
  | close =>
    simp only [hd, Destructor.step, Option.some.injEq] at hr
    subst hr
    simp only [Destructor.remaining]
    omega
  | drain d =>
    simp only [hd, Destructor.step, Option.some.injEq] at hr
    subst hr
    have hpaid := drain_remaining s d 1 rfl
    have hthreads : (d.step s).1.threads = s.threads := congrArg (·.2.1) (drain_same s d)
    have hnext : (((d.step s).2.map Destructor.drain).getD .close).remaining
        = (d.step s).2.elim 1 Drain.remaining := by
      cases (d.step s).2 <;> rfl
    have hbefore : (Destructor.drain d).remaining = d.remaining := rfl
    simp only [hthreads, hnext, hbefore]
    omega

/-- Each operation is paid for by the potential or by the price of its step. -/
lemma potential_step (hstep : step s b = some s') :
    operation s b + s'.potential ≤ s.potential + price b := by
  cases b with
  | fork =>
    obtain rfl := Option.some.inj hstep
    show 0 + (tally left (s.threads ++ [none]) + _ + _) ≤ s.potential + 0
    rw [tally_append, tally_cons, tally_nil]
    simp only [left, Option.elim_none, State.potential]
    omega
  | write i msg =>
    simp only [step] at hstep
    split at hstep
    next hcall =>
      obtain rfl := Option.some.inj hstep
      have hset := tally_set left (some (.push msg)) hcall.2
      have hnone : left none = 0 := rfl
      have hpush : left (some (.push msg)) = msg.length + 6 := rfl
      simp only [State.potential, operation, price]
      omega
    next => cases hstep
  | advance i =>
    simp only [step] at hstep
    split at hstep
    next p hi =>
      obtain rfl := Option.some.inj hstep
      exact potential_advance hi
    next => cases hstep
  | destroy =>
    simp only [step] at hstep
    split at hstep
    next hcall =>
      obtain rfl := Option.some.inj hstep
      simp only [State.potential, operation, price, hcall.1, Destructor.remaining, Drain.remaining]
      omega
    next => cases hstep
  | advanceDestructor =>
    obtain ⟨r, hr, rfl⟩ := Option.map_eq_some_iff.mp hstep
    exact potential_destructor hr

/-- **The file keeps up with the calls that stream, and no call waits.** At every moment the file is the
beginning of the messages in the order of their pushes, and it only grows. Whenever a call of `write`
finds the queue empty and leaves the loop, the file is all that has been pushed up to then, and so it
begins for ever. And all calls and the destructor together do a bounded number of operations: for each
call 6 and one for each character, and 2 for the destructor; none of them ever waits. -/
theorem stream_keeps_up {as bs : List Label} (h : executeAll step {} as = some s)
    (hrest : executeAll step s bs = some t) :
    s.file <+: s.pushed.flatten ∧ s.file <+: t.file ∧
    (∀ i : ℕ, s.threads[i]? = some (some (.drain .tryPop)) → s.waitingMessages = [] →
      s.file = s.pushed.flatten ∧ s.pushed.flatten <+: t.file) ∧
    totalCost step operation {} as ≤ tally price as ∧
    (∀ (i : ℕ) (p : Point), s.threads[i]? = some (some p) → ∃ s', step s (.advance i) = some s') := by
  have horder := inOrder (.of_executeAll as h)
  have hgrows := file_grows (.of_executeAll bs hrest)
  refine ⟨horder.file_prefix, hgrows, fun i hi hempty => ?_, ?_, fun i p hi => ?_⟩
  · have hfile := horder.file_eq hi hempty
    exact ⟨hfile, hfile ▸ hgrows⟩
  · have htotal : totalCost step operation {} as + s.potential
        ≤ State.potential {} + tally price as :=
      totalCost_le (I := fun _ => True) as h trivial
        fun s b s' _ _ hstep => ⟨trivial, potential_step hstep⟩
    have hzero : State.potential {} = 0 := rfl
    omega
  · simp only [step, hi]
    exact ⟨_, rfl⟩

/-- Thread 0 streams the messages of both threads and finds the queue empty. -/
theorem stream_keeps_up_handedOver : ∃ s t : State,
    executeAll step {} (handedOver.take 15) = some s ∧
    executeAll step s (handedOver.drop 15) = some t ∧ s.pushed = [['a', 'b'], ['c']] ∧
    s.pushed.flatten <+: t.file ∧
    totalCost step operation {} (handedOver.take 15) ≤ 8 + 7 := by
  have hrun : ∃ s t : State, executeAll step {} (handedOver.take 15) = some s ∧
      executeAll step s (handedOver.drop 15) = some t ∧ s.pushed = [['a', 'b'], ['c']] ∧
      s.threads[0]? = some (some (.drain .tryPop)) ∧ s.waitingMessages = [] :=
    ⟨_, _, rfl, rfl, rfl, rfl, rfl⟩
  obtain ⟨s, t, hs, ht, hpushed, hi, hempty⟩ := hrun
  have hmain := stream_keeps_up hs ht
  exact ⟨s, t, hs, ht, hpushed, (hmain.2.2.1 0 hi hempty).2, hmain.2.2.2.1⟩

end UnifyPrototype.ThreadSafeOutputFileStream
