import UnifyPrototype.ThreadSafeOutputFileStream.Model

/-!
# Every message once, whole and in order

At most one thread streams at a time, the one that has set `msgBeingLogged_`. So the file, what that
thread has in hand and what waits in the queue are, one after the other, all messages in the order
of their pushes.
-/

namespace UnifyPrototype.ThreadSafeOutputFileStream

open UnifyPrototype.Utils

variable {s s' : State} {i : ℕ} {d : Drain} {p q : Option Point} {l : List (Option Point)}

/-! ## Who streams -/

/-- One for a thread that has set `msgBeingLogged_`. -/
def logging : Option Point → ℕ
  | some (.drain _) | some .store => 1
  | _ => 0

/-- What was popped and is not streamed yet. -/
def Drain.inHand : Drain → Message
  | .tryPop => []
  | .stream tmp => tmp

/-- What the thread has in hand. -/
def inHand : Option Point → Message
  | some (.drain d) => d.inHand
  | _ => []

/-- What the destructor has in hand. -/
def Destructor.inHand : Destructor → Message
  | .drain d => d.inHand
  | _ => []

/-- The message that the thread has not pushed yet. -/
def unpushed : Option Point → List Message
  | some (.push msg) => [msg]
  | _ => []

lemma inHand_of_not_logging (h : logging p = 0) : inHand p = [] := by
  cases p with
  | none => rfl
  | some pt =>
    cases pt with
    | drain d => cases h
    | push msg => rfl
    | compareExchange => rfl
    | store => cases h

lemma flatMap_inHand_of_quiet (h : tally logging l = 0) : l.flatMap inHand = [] := by
  induction l with
  | nil => rfl
  | cons p l ih =>
    rw [tally_cons] at h
    rw [List.flatMap_cons, inHand_of_not_logging (by omega), ih (by omega)]
    rfl

/-- A thread that keeps in hand what it has. -/
lemma flatMap_inHand_same (hi : l[i]? = some p) (h : inHand q = inHand p) :
    (l.set i q).flatMap inHand = l.flatMap inHand := by
  induction l generalizing i with
  | nil => rfl
  | cons c l ih =>
    cases i with
    | zero =>
      obtain rfl : c = p := by simpa using hi
      rw [List.set_cons_zero, List.flatMap_cons, List.flatMap_cons, h]
    | succ i =>
      rw [List.set_cons_succ, List.flatMap_cons, List.flatMap_cons, ih (by simpa using hi)]

/-- What the one thread that streams has in hand is all that is in hand. -/
lemma flatMap_inHand_set (hone : tally logging l ≤ 1) (hi : l[i]? = some p) (hp : logging p = 1)
    (q : Option Point) : (l.set i q).flatMap inHand = inHand q := by
  induction l generalizing i with
  | nil => cases hi
  | cons c l ih =>
    rw [tally_cons] at hone
    cases i with
    | zero =>
      obtain rfl : c = p := by simpa using hi
      rw [List.set_cons_zero, List.flatMap_cons, flatMap_inHand_of_quiet (by omega), List.append_nil]
    | succ i =>
      have hi' : l[i]? = some p := by simpa using hi
      have hle := le_tally logging hi'
      rw [List.set_cons_succ, List.flatMap_cons, inHand_of_not_logging (by omega),
        ih (by omega) hi']
      rfl

lemma flatMap_inHand (hone : tally logging l ≤ 1) (hi : l[i]? = some p) (hp : logging p = 1) :
    l.flatMap inHand = inHand p := by
  have hset := flatMap_inHand_set hone hi hp p
  obtain ⟨hlt, rfl⟩ := List.getElem?_eq_some_iff.mp hi
  rwa [List.set_getElem_self] at hset

/-! ## The invariant -/

/-- The flag says that one thread is in the loop; the file, what is in hand and the queue are the
messages in the order of their pushes; the destructor has the queue for itself and leaves it
empty. -/
structure State.InOrder (s : State) : Prop where
  logging : tally logging s.threads = if s.msgBeingLogged then 1 else 0
  content : s.file ++ s.threads.flatMap inHand ++ s.destructor.inHand ++ s.waitingMessages.flatten
    = s.pushed.flatten
  idle : s.destructor ≠ .notCalled → s.Idle
  drained : s.destructor = .close ∨ s.destructor = .returned → s.waitingMessages = []
  written : ∀ msg, s.written.count msg
    = s.pushed.count msg + tally (fun p => (unpushed p).count msg) s.threads

/-- One thread at a time writes to the file. -/
lemma State.InOrder.logging_le (h : s.InOrder) :
    tally ThreadSafeOutputFileStream.logging s.threads ≤ 1 := by
  rw [h.logging]
  split <;> omega

/-- While a call of `write` is in progress, the destructor is not. -/
lemma State.InOrder.notCalled (h : s.InOrder) {pt : Point} (hi : s.threads[i]? = some (some pt)) :
    s.destructor = .notCalled := by
  by_contra hne
  cases h.idle hne _ (List.mem_of_getElem? hi)

/-- The thread that stores is the one that has set the flag. -/
lemma State.InOrder.flag_of_store (h : s.InOrder) (hi : s.threads[i]? = some (some .store)) :
    s.msgBeingLogged = true := by
  have hle := le_tally ThreadSafeOutputFileStream.logging hi
  have hlogging := h.logging
  by_contra hclear
  rw [if_neg hclear] at hlogging
  have hone : ThreadSafeOutputFileStream.logging (some .store) = 1 := rfl
  omega

/-- A push puts the message last. -/
lemma inOrder_push {msg : Message} (h : s.InOrder) (hi : s.threads[i]? = some (some (.push msg)))
    (hthreads : s'.threads = s.threads.set i (some .compareExchange))
    (hsame : (s'.file, s'.msgBeingLogged, s'.destructor, s'.written)
      = (s.file, s.msgBeingLogged, s.destructor, s.written))
    (hmessages : s'.waitingMessages = s.waitingMessages ++ [msg])
    (hpushed : s'.pushed = s.pushed ++ [msg]) : s'.InOrder := by
  obtain ⟨hfile, hflag, hdestructor, hwritten⟩ := by simpa only [Prod.mk.injEq] using hsame
  have hnot := h.notCalled hi
  refine ⟨?_, ?_, fun hne => absurd (hdestructor.trans hnot) hne, fun hd => ?_, fun msg' => ?_⟩
  · have hlogging := tally_set logging (some .compareExchange) hi
    rw [hthreads, hflag, ← h.logging]
    exact hlogging
  · rw [hthreads, hfile, hdestructor, hmessages, hpushed, List.flatten_append, List.flatten_append,
      flatMap_inHand_same hi (q := some .compareExchange) rfl, ← List.append_assoc, h.content]
  · rw [hdestructor, hnot] at hd
    simp at hd
  · have hcount := h.written msg'
    have hset := tally_set (fun p => (unpushed p).count msg') (some .compareExchange) hi
    have hbefore : unpushed (some (.push msg)) = [msg] := rfl
    have hafter : unpushed (some .compareExchange) = [] := rfl
    rw [hbefore, hafter, List.count_nil] at hset
    rw [hwritten, hpushed, hthreads, List.count_append, hcount]
    omega

/-- What every other operation of `write` does: the thread counts for the flag as before, and what
leaves the queue is in hand or in the file. -/
lemma inOrder_move {pt : Point} (h : s.InOrder) (hi : s.threads[i]? = some (some pt))
    (hthreads : s'.threads = s.threads.set i q) (hpt : unpushed (some pt) = [])
    (hq : unpushed q = [])
    (hsame : (s'.destructor, s'.written, s'.pushed) = (s.destructor, s.written, s.pushed))
    (hflag : (if s'.msgBeingLogged then 1 else 0) + logging (some pt)
      = (if s.msgBeingLogged then 1 else 0) + logging q)
    (hcontent : s'.file ++ s'.threads.flatMap inHand ++ s'.waitingMessages.flatten
      = s.file ++ s.threads.flatMap inHand ++ s.waitingMessages.flatten) : s'.InOrder := by
  obtain ⟨hdestructor, hwritten, hpushed⟩ := by simpa only [Prod.mk.injEq] using hsame
  have hnot := h.notCalled hi
  refine ⟨?_, ?_, fun hne => absurd (hdestructor.trans hnot) hne, fun hd => ?_, fun msg => ?_⟩
  · have hset := tally_set logging q hi
    have hlogging := h.logging
    rw [hthreads]
    omega
  · have hbefore := h.content
    have hnone : Destructor.notCalled.inHand = [] := rfl
    rw [hnot, hnone, List.append_nil] at hbefore
    rw [hdestructor, hnot, hnone, List.append_nil, hcontent, hpushed]
    exact hbefore
  · rw [hdestructor, hnot] at hd
    simp at hd
  · have hset := tally_set (fun p => (unpushed p).count msg) q hi
    rw [hpt, hq] at hset
    rw [hwritten, hpushed, hthreads, h.written msg]
    omega

/-- One operation of the loop: what leaves the queue is in hand, and what leaves the hand is in the
file. -/
lemma drain_content (s : State) (d : Drain) :
    (d.step s).1.file ++ ((d.step s).2.map Drain.inHand).getD [] ++ (d.step s).1.waitingMessages.flatten
      = s.file ++ d.inHand ++ s.waitingMessages.flatten := by
  cases d with
  | tryPop => cases hmessages : s.waitingMessages <;> simp [Drain.step, Drain.inHand, hmessages]
  | stream tmp => cases tmp <;> simp [Drain.step, Drain.inHand]

/-- The loop ends when the queue is empty. -/
lemma waitingMessages_of_drained (h : (d.step s).2 = none) : (d.step s).1.waitingMessages = [] := by
  cases d with
  | tryPop => cases hmessages : s.waitingMessages <;> simp [Drain.step, hmessages] at h ⊢
  | stream tmp => cases tmp <;> simp [Drain.step] at h

/-- What the loop leaves alone. -/
lemma drain_same (s : State) (d : Drain) :
    ((d.step s).1.msgBeingLogged, (d.step s).1.threads, (d.step s).1.destructor,
      (d.step s).1.written, (d.step s).1.pushed)
      = (s.msgBeingLogged, s.threads, s.destructor, s.written, s.pushed) := by
  cases d with
  | tryPop => cases hmessages : s.waitingMessages <;> simp [Drain.step, hmessages]
  | stream tmp => cases tmp <;> simp [Drain.step]

/-- A message that is popped is in hand, and one that is streamed is in the file. -/
lemma inOrder_drain (h : s.InOrder) (hi : s.threads[i]? = some (some (.drain d))) :
    State.InOrder { (d.step s).1 with
      threads := s.threads.set i (some (((d.step s).2.map Point.drain).getD .store)) } := by
  obtain ⟨hflag, -, hdestructor, hwritten, hpushed⟩ := by
    simpa only [Prod.mk.injEq] using drain_same s d
  have hnext : ∀ r : Option Drain, logging (some ((r.map Point.drain).getD .store)) = 1 ∧
      unpushed (some ((r.map Point.drain).getD .store)) = [] ∧
      inHand (some ((r.map Point.drain).getD .store)) = (r.map Drain.inHand).getD [] := by
    intro r
    cases r <;> exact ⟨rfl, rfl, rfl⟩
  obtain ⟨hlogging, hunpushed, hhand⟩ := hnext (d.step s).2
  refine inOrder_move h hi rfl rfl hunpushed ?_ ?_ ?_
  · simp only [hdestructor, hwritten, hpushed]
  · rw [hflag, hlogging]
    rfl
  · rw [flatMap_inHand_set h.logging_le hi rfl, flatMap_inHand h.logging_le hi rfl, hhand]
    exact drain_content s d

/-- One operation of `write`. -/
lemma inOrder_advance {pt : Point} (h : s.InOrder) (hi : s.threads[i]? = some (some pt)) :
    State.InOrder { (pt.step s).1 with threads := s.threads.set i (pt.step s).2 } := by
  cases pt with
  | push msg => exact inOrder_push h hi rfl rfl rfl rfl
  | compareExchange =>
    cases hflag : s.msgBeingLogged with
    | true =>
      simp only [Point.step, hflag, if_true]
      refine inOrder_move h hi rfl rfl rfl rfl ?_ ?_
      · rw [hflag]
        rfl
      · simp only [flatMap_inHand_same hi (q := none) rfl]
    | false =>
      simp only [Point.step, hflag, Bool.false_eq_true, if_false]
      refine inOrder_move h hi rfl rfl rfl rfl ?_ ?_
      · rw [hflag]
        rfl
      · simp only [flatMap_inHand_same hi (q := some (.drain .tryPop)) rfl]
  | drain d => exact inOrder_drain h hi
  | store =>
    have hflag := h.flag_of_store hi
    refine inOrder_move h hi rfl rfl rfl rfl ?_ ?_
    · rw [hflag]
      rfl
    · show s.file ++ (s.threads.set i none).flatMap inHand ++ s.waitingMessages.flatten = _
      rw [flatMap_inHand_same hi (q := none) rfl]

lemma flatMap_eq_nil_of_idle {β : Type} {f : Option Point → List β} (hf : f none = [])
    (h : s.Idle) : s.threads.flatMap f = [] := by
  refine List.flatMap_eq_nil_iff.mpr fun p hp => ?_
  rw [h p hp]
  exact hf

/-- One operation of the destructor, which has the queue for itself. -/
lemma inOrder_destructor {r : State × Destructor} (h : s.InOrder)
    (hstep : s.destructor.step s = some r) : State.InOrder { r.1 with destructor := r.2 } := by
  cases hdestructor : s.destructor with
  | notCalled => simp [hdestructor, Destructor.step] at hstep
  | returned => simp [hdestructor, Destructor.step] at hstep
  | close =>
    simp only [hdestructor, Destructor.step, Option.some.injEq] at hstep
    subst hstep
    refine ⟨h.logging, ?_, fun _ => h.idle (by simp [hdestructor]),
      fun _ => h.drained (.inl hdestructor), h.written⟩
    have hcontent := h.content
    rw [hdestructor] at hcontent
    exact hcontent
  | drain d =>
    simp only [hdestructor, Destructor.step, Option.some.injEq] at hstep
    subst hstep
    have hidle : s.Idle := h.idle (by simp [hdestructor])
    obtain ⟨hflag, hthreads, -, hwritten, hpushed⟩ := by
      simpa only [Prod.mk.injEq] using drain_same s d
    -- the drain has what is left in its hand until the file is closed
    have hnext : ∀ r : Option Drain, ((r.map Destructor.drain).getD .close).inHand
        = (r.map Drain.inHand).getD [] := by
      intro r
      cases r <;> rfl
    refine ⟨?_, ?_, fun _ => ?_, fun hd => waitingMessages_of_drained (d := d) ?_, fun msg => ?_⟩
    · simp only [hthreads, hflag]
      exact h.logging
    · have hcontent := h.content
      have hdrain := drain_content s d
      rw [hdestructor, flatMap_eq_nil_of_idle rfl hidle, List.append_nil] at hcontent
      simp only [hthreads, hpushed, hnext, flatMap_eq_nil_of_idle (f := inHand) rfl hidle,
        List.append_nil]
      exact hdrain.trans hcontent
    · unfold State.Idle
      simp only [hthreads]
      exact hidle
    · cases hd' : (d.step s).2 with
      | none => rfl
      | some d' => simp [hd'] at hd
    · simp only [hwritten, hpushed, hthreads]
      exact h.written msg

/-- Each step keeps the order. -/
lemma inOrder_step {b : Label} (h : s.InOrder) (hstep : step s b = some s') : s'.InOrder := by
  cases b with
  | fork =>
    obtain rfl := Option.some.inj hstep
    refine ⟨?_, ?_, fun hne p hp => ?_, h.drained, fun msg => ?_⟩
    · rw [tally_append]
      exact h.logging
    · rw [List.flatMap_append]
      have hcontent := h.content
      rw [← hcontent]
      simp [inHand]
    · rcases List.mem_append.mp hp with hp | hp
      · exact h.idle hne p hp
      · exact List.mem_singleton.mp hp
    · rw [tally_append]
      exact h.written msg
  | write i msg =>
    simp only [step] at hstep
    split at hstep
    next hcall =>
      obtain rfl := Option.some.inj hstep
      have hset := tally_set logging (some (.push msg)) hcall.2
      refine ⟨hset.trans h.logging, ?_, fun hne => absurd hcall.1 hne, h.drained, fun msg' => ?_⟩
      · -- the message is not in the hands of a writer before it is pushed
        simp only [flatMap_inHand_same hcall.2 (q := some (.push msg)) rfl]
        exact h.content
      · have hcount := tally_set (fun p => (unpushed p).count msg') (some (.push msg)) hcall.2
        have hbefore : unpushed none = [] := rfl
        have hafter : unpushed (some (.push msg)) = [msg] := rfl
        have hwritten := h.written msg'
        rw [hbefore, hafter, List.count_nil] at hcount
        rw [List.count_append]
        dsimp only
        omega
    next => cases hstep
  | advance i =>
    simp only [step] at hstep
    split at hstep
    next pt hi =>
      obtain rfl := Option.some.inj hstep
      exact inOrder_advance h hi
    next => cases hstep
  | destroy =>
    simp only [step] at hstep
    split at hstep
    next hcall =>
      obtain rfl := Option.some.inj hstep
      refine ⟨h.logging, ?_, fun _ => hcall.2, fun hd => by simp at hd, h.written⟩
      have hcontent := h.content
      rw [hcall.1] at hcontent
      exact hcontent
    next => cases hstep
  | advanceDestructor =>
    obtain ⟨r, hr, rfl⟩ := Option.map_eq_some_iff.mp hstep
    exact inOrder_destructor h hr

/-- It holds in every reachable state. -/
theorem inOrder (h : Reachable s) : s.InOrder := by
  refine h.invariant ⟨rfl, rfl, fun hne => absurd rfl hne, fun hd => ?_, fun _ => rfl⟩
    fun _ _ _ hs _ hstep => inOrder_step hs hstep
  simp at hd

/-- When no call is in progress, the messages of the calls have been pushed. -/
lemma State.InOrder.pushed_perm (h : s.InOrder) (hidle : s.Idle) : s.pushed.Perm s.written := by
  refine List.perm_iff_count.mpr fun msg => ?_
  have hnone : tally (fun p => (unpushed p).count msg) s.threads = 0 := by
    refine tally_eq_zero.mpr fun p hp => ?_
    rw [hidle p hp]
    rfl
  rw [h.written, hnone, Nat.add_zero]

/-! ## The file -/

lemma advance_destructor (hd : s.destructor = .drain d) :
    step s .advanceDestructor = some { (d.step s).1 with
      destructor := ((d.step s).2.map .drain).getD .close } := by
  simp [step, hd, Destructor.step]

/-- The destructor closes the file and returns. -/
lemma close_returns (hd : s.destructor = .close) :
    ∃ s', Reaches step s s' ∧ s'.destructor = .returned := by
  have hstep : step s .advanceDestructor = some { s with destructor := .returned } := by
    simp [step, hd, Destructor.step]
  exact ⟨_, .tail .refl trivial hstep, rfl⟩

/-- The destructor streams what it has in hand. -/
lemma destructor_streams (tmp : Message) (hd : s.destructor = .drain (.stream tmp)) :
    ∃ s', Reaches step s s' ∧ s'.destructor = .drain .tryPop ∧
      s'.waitingMessages = s.waitingMessages := by
  induction tmp generalizing s with
  | nil => exact ⟨_, .tail .refl trivial (advance_destructor hd), rfl, rfl⟩
  | cons c tmp ih =>
    obtain ⟨s', hreaches, hd', hmessages⟩ := ih (s := { s with
      file := s.file ++ [c], destructor := .drain (.stream tmp) }) rfl
    have hstep := advance_destructor hd
    exact ⟨s', (RunsTo.tail .refl trivial hstep).trans hreaches, hd', hmessages⟩

/-- Then it streams what is in the queue, and returns. -/
lemma destructor_drains (messages : List Message) (hd : s.destructor = .drain .tryPop)
    (hmessages : s.waitingMessages = messages) :
    ∃ s', Reaches step s s' ∧ s'.destructor = .returned := by
  induction messages generalizing s with
  | nil =>
    have hstep := advance_destructor hd
    have hnone : (Drain.tryPop.step s).2 = none := by simp [Drain.step, hmessages]
    rw [hnone] at hstep
    obtain ⟨s', hreaches, hreturned⟩ := close_returns (s := { (Drain.tryPop.step s).1 with
      destructor := .close }) rfl
    exact ⟨s', (RunsTo.tail .refl trivial hstep).trans hreaches, hreturned⟩
  | cons tmp rest ih =>
    have hstep := advance_destructor hd
    simp only [Drain.step, hmessages, Option.map_some, Option.getD_some] at hstep
    obtain ⟨u, hu, hdu, hmessages'⟩ := destructor_streams tmp (s := { s with
      waitingMessages := rest, destructor := .drain (.stream tmp) }) rfl
    obtain ⟨s', hreaches, hreturned⟩ := ih hdu hmessages'
    exact ⟨s', ((RunsTo.tail .refl trivial hstep).trans hu).trans hreaches, hreturned⟩

/-- Once called, the destructor can go on until it returns. -/
lemma destructor_returns (hcalled : s.destructor ≠ .notCalled) :
    ∃ s', Reaches step s s' ∧ s'.destructor = .returned := by
  cases hd : s.destructor with
  | notCalled => exact absurd hd hcalled
  | drain d =>
    cases d with
    | tryPop => exact destructor_drains _ hd rfl
    | stream tmp =>
      obtain ⟨u, hu, hdu, -⟩ := destructor_streams tmp hd
      obtain ⟨s', hreaches, hreturned⟩ := destructor_drains _ hdu rfl
      exact ⟨s', hu.trans hreaches, hreturned⟩
  | close => exact close_returns hd
  | returned => exact ⟨s, .refl, hd⟩

/-- **Every message once, whole and in order.** When the destructor has returned, the file is the
concatenation of the messages in the order of their pushes, and these are the messages of the calls
of `write`. Once it has been called it returns. -/
theorem file_content (s : State) (h : Reachable s) :
    (s.destructor = .returned →
      s.file = s.pushed.flatten ∧ s.pushed.Perm s.written) ∧
    (s.destructor ≠ .notCalled → ∃ s', Reaches step s s' ∧ s'.destructor = .returned) := by
  have horder := inOrder h
  refine ⟨fun hreturned => ?_, destructor_returns⟩
  have hidle : s.Idle := horder.idle (by simp [hreturned])
  refine ⟨?_, horder.pushed_perm hidle⟩
  have hcontent := horder.content
  rw [flatMap_eq_nil_of_idle rfl hidle, hreturned, horder.drained (.inr hreturned)] at hcontent
  simpa [Destructor.inHand] using hcontent

/-- Thread 0 writes and sets the flag; thread 1 writes `c` and leaves it for thread 0, which streams
`ab` and `c`; thread 1 writes `d` after the last `try_pop` of thread 0 and before its `store`, so
the destructor streams it. -/
def handedOver : List Label :=
  [[.fork, .fork, .write 0 ['a', 'b'], .advance 0, .advance 0, .write 1 ['c'], .advance 1, .advance 1],
    .replicate 8 (.advance 0), [.write 1 ['d'], .advance 1, .advance 1, .advance 0, .destroy],
    .replicate 5 .advanceDestructor].flatten

theorem file_content_handedOver : ∃ s : State, s.destructor = .returned ∧
    s.pushed = [['a', 'b'], ['c'], ['d']] ∧ s.file = s.pushed.flatten := by
  have hrun : ∃ s, executeAll step {} handedOver = some s ∧ s.destructor = .returned ∧
      s.pushed = [['a', 'b'], ['c'], ['d']] := ⟨_, rfl, rfl, rfl⟩
  obtain ⟨s, hs, hreturned, hpushed⟩ := hrun
  exact ⟨s, hreturned, hpushed, ((file_content s (.of_executeAll _ hs)).1 hreturned).1⟩

end UnifyPrototype.ThreadSafeOutputFileStream
