import UnifyPrototype.LimitedTaskQueue.Model

/-!
# What a step does to the frames

`steps` takes the steps of the program apart; the invariants are case analyses over it. The frame of a
thread fits the thread: a lambda is what its functor executes, and a call is in its user code.
-/

namespace UnifyPrototype.LimitedTaskQueue

open UnifyPrototype.Utils
open SerialTaskQueue (QueuedTask Point Thread Result)

variable {k : ℕ} {s s' : State k} {a : Label}

/-! ## The cases -/

/-- What a step is. `enter` stands for `push` and `pushAndPause`, and `resumers` for the operations on
`Resumer`s that concern no queue. -/
inductive Steps (s : State k) : Label → State k → Prop
  | fork {b} (hb : SerialTaskQueue.step s.base .fork = some b) :
      Steps s .fork { s with base := b }
  | enter (a : Label) {i : ℕ} {th : Thread (Fin k) (Closure k)} {c : Call k}
      (hnew : a.continues = false) (hth : s.base.threads[i]? = some th) (huser : inUserCode th (s.frame i) = true)
      (hc : c.setToRun = s.nextAction) (hqueues : c.queues = List.finRange k) :
      Steps s a (s.enter i c)
  | copy {i r q b} (hr : s.resumers[r]? = some (some q))
      (hb : SerialTaskQueue.step s.base (.call i q .pause) = some b) :
      Steps s (.copy i r) { s with base := b }
  | resumers (a : Label) {resumers : List (Option (Fin k))} (hnew : a.continues = false)
      (hcount : ∀ q, resumers.count (some q) = s.resumers.count (some q)) :
      Steps s a { s with resumers := resumers }
  | release {i r q b} (hr : s.resumers[r]? = some (some q))
      (hb : SerialTaskQueue.step s.base (.call i q .resume) = some b) :
      Steps s (.release i r) { s with base := b, resumers := s.resumers.set r none }
  | pushes {i c q queues b} (hcall : (s.frame i).call = some c) (hqueues : c.queues = q :: queues)
      (hb : SerialTaskQueue.step s.base (.call i q (.push c.group (c.closure q))) = some b) :
      Steps s (.proceed i) { s with
        base := b
        frame := Function.update s.frame i
          { s.frame i with call := some { c with queues := queues } } }
  | returns {i : ℕ} {th : Thread (Fin k) (Closure k)} {c : Call k}
      (hth : s.base.threads[i]? = some th) (hnone : th.call = none)
      (hcall : (s.frame i).call = some c) (hqueues : c.queues = []) :
      Steps s (.proceed i) { s with
        frame := Function.update s.frame i { s.frame i with call := none }
        returned := s.returned ++ [c.setToRun] }
  | fails {i c} (hframe : s.frame i = ⟨some (.exchange c), none⟩)
      (hset : s.setToRun c.setToRun = true) :
      Steps s (.proceed i) { s with frame := Function.update s.frame i {} }
  | claims {i c} (hframe : s.frame i = ⟨some (.exchange c), none⟩)
      (hset : s.setToRun c.setToRun = false) :
      Steps s (.proceed i) { s with
        frame := Function.update s.frame i ⟨some c.afterExchange, none⟩
        setToRun := Function.update s.setToRun c.setToRun true
        claimed := s.claimed ++ [c.setToRun] }
  | pauses {i q n b} (hframe : s.frame i = ⟨some (.pause q n), none⟩)
      (hb : SerialTaskQueue.step s.base (.call i q .pause) = some b) :
      Steps s (.proceed i) { s with
        base := b, frame := Function.update s.frame i ⟨some (.iAction n), none⟩ }
  | actionEnds {i n} (hframe : s.frame i = ⟨some (.iAction n), none⟩) :
      Steps s (.actionEnds i) { s with frame := Function.update s.frame i {}, ran := s.ran ++ [n] }
  | advance {i : ℕ} {th : Thread (Fin k) (Closure k)} {q : Fin k} {pt : Point (Closure k)} {b}
      (hth : s.base.threads[i]? = some th) (hnext : th.next? = some (q, pt))
      (hb : SerialTaskQueue.step s.base (.advance i) = some b) :
      Steps s (.advance i) { s with
        base := b
        frame := Function.update s.frame i ((s.frame i).after pt)
        resumers := s.resumers ++ constructed q pt }
  | finish {i threw b} (hframe : s.frame i = {})
      (hb : SerialTaskQueue.step s.base (.finish i threw) = some b) :
      Steps s (.finish i threw) { s with base := b }

lemma thread_of_userCode {i : ℕ} (h : s.userCode i = true) :
    ∃ th, s.base.threads[i]? = some th ∧ inUserCode th (s.frame i) = true := by
  unfold State.userCode at h
  split at h
  next th hth => exact ⟨th, hth, h⟩
  next => cases h

lemma thread_of_outsideQueues {i : ℕ} (h : s.outsideQueues i = true) :
    ∃ th, s.base.threads[i]? = some th ∧ th.call = none := by
  unfold State.outsideQueues at h
  split at h
  next th hth => exact ⟨th, hth, Option.isNone_iff_eq_none.mp h⟩
  next => cases h

/-- Moving the queue of one `Resumer` to a new one leaves the number of those with a queue alone. -/
lemma count_move {r : ℕ} {l : List (Option (Fin k))} {o : Option (Fin k)} (hr : l[r]? = some o)
    (q : Fin k) : (l.set r none ++ [o]).count (some q) = l.count (some q) := by
  obtain ⟨hlt, rfl⟩ := List.getElem?_eq_some_iff.mp hr
  have hset := List.count_set (a := none) (b := some q) hlt
  have hmem : l[r] = some q → 0 < l.count (some q) := fun heq =>
    List.count_pos_iff.mpr (heq ▸ List.getElem_mem hlt)
  rw [List.count_append, hset, List.count_singleton]
  by_cases heq : l[r] = some q
  · have := hmem heq
    simp [heq]
    omega
  · simp [heq]

/-- The branches of an action that goes on. -/
lemma steps_proceed {i : ℕ} (hout : s.outsideQueues i = true) (h : s.proceed i = some s') :
    Steps s (.proceed i) s' := by
  obtain ⟨th, hth, hnone⟩ := thread_of_outsideQueues hout
  unfold State.proceed at h
  split at h
  next body c hframe =>
    have hcall : (s.frame i).call = some c := by rw [hframe]
    have hbody : (s.frame i).body = body := by rw [hframe]
    subst hbody
    split at h
    next q queues hqueues =>
      obtain ⟨b, hb, rfl⟩ := Option.map_eq_some_iff.mp h
      exact .pushes hcall hqueues hb
    next hqueues =>
      obtain rfl := Option.some.inj h
      exact .returns hth hnone hcall hqueues
  next c hframe =>
    split at h
    next hset =>
      obtain rfl := Option.some.inj h
      exact .fails hframe hset
    next hset =>
      obtain rfl := Option.some.inj h
      exact .claims hframe (by simpa using hset)
  next q n hframe =>
    obtain ⟨b, hb, rfl⟩ := Option.map_eq_some_iff.mp h
    exact .pauses hframe hb
  next => cases h
  next => cases h

/-- **Inversion.** Every step of the program is one of the cases. -/
theorem steps (h : step s a = some s') : Steps s a s' := by
  cases a with
  | fork =>
    simp only [step] at h
    obtain ⟨b, hb, rfl⟩ := Option.map_eq_some_iff.mp h
    exact .fork hb
  | push i g | pushAndPause i g =>
    simp only [step] at h
    split at h
    next huser =>
      obtain ⟨th, hth, huser⟩ := thread_of_userCode huser
      obtain rfl := Option.some.inj h
      exact .enter _ rfl hth huser rfl rfl
    next => cases h
  | copy i r =>
    simp only [step, State.copy] at h
    split at h
    next =>
      split at h
      next q hr =>
        obtain ⟨b, hb, rfl⟩ := Option.map_eq_some_iff.mp h
        exact .copy hr hb
      next =>
        obtain rfl := Option.some.inj h
        exact .resumers _ rfl fun q => by simp
      next => cases h
    next => cases h
  | move i r =>
    simp only [step, State.move] at h
    split at h
    next =>
      obtain ⟨o, hr, rfl⟩ := Option.map_eq_some_iff.mp h
      exact .resumers _ rfl (count_move hr)
    next => cases h
  | release i r =>
    simp only [step, State.release] at h
    split at h
    next =>
      split at h
      next q hr =>
        obtain ⟨b, hb, rfl⟩ := Option.map_eq_some_iff.mp h
        exact .release hr hb
      next =>
        obtain rfl := Option.some.inj h
        exact .resumers _ rfl fun _ => rfl
      next => cases h
    next => cases h
  | proceed i =>
    simp only [step] at h
    split at h
    next hout => exact steps_proceed hout h
    next => cases h
  | actionEnds i =>
    simp only [step] at h
    split at h
    next n hframe =>
      obtain rfl := Option.some.inj h
      exact .actionEnds hframe
    next => cases h
  | advance i =>
    simp only [step] at h
    split at h
    next q pt hbind =>
      obtain ⟨b, hb, rfl⟩ := Option.map_eq_some_iff.mp h
      obtain ⟨th, hth, hnext⟩ := Option.bind_eq_some_iff.mp hbind
      exact .advance hth hnext hb
    next => cases h
  | finish i threw =>
    simp only [step] at h
    split at h
    next hframe =>
      obtain ⟨b, hb, rfl⟩ := Option.map_eq_some_iff.mp h
      exact .finish hframe hb
    next => cases h

/-! ## The queues -/

/-- Every step is a step of the queues, or leaves them alone. Only a lambda of which nothing is left
ends. -/
lemma step_base (h : step s a = some s') :
    s'.base = s.base ∨ ∃ b, SerialTaskQueue.step s.base b = some s'.base ∧
      (∀ i threw, b = .finish i threw → s.frame i = {}) ∧ ∀ i, b = .advance i → a = .advance i := by
  cases steps h with
  | fork hb | copy _ hb | release _ hb | pushes _ _ hb | pauses _ hb =>
    exact .inr ⟨_, hb, nofun, nofun⟩
  | advance _ _ hb =>
    refine .inr ⟨_, hb, nofun, fun i hl => ?_⟩
    cases hl
    rfl
  | finish hframe hb =>
    refine .inr ⟨_, hb, fun i threw hl => ?_, nofun⟩
    cases hl
    exact hframe
  | _ => exact .inl rfl

/-- The queues run as queues do: what holds of `SerialTaskQueue` holds of them. -/
theorem reachable_base (h : Reachable s) : SerialTaskQueue.Reachable s.base := by
  refine h.simulate (f := State.base) fun s a s' _ hstep => ?_
  rcases step_base hstep with heq | ⟨b, hb, -⟩
  · rw [heq]
    exact .refl
  · exact .tail .refl trivial hb

/-! ## Frames and threads -/

/-- Which call of `push` or `pushAndPause` the lambda comes from. -/
def Body.setToRun : Body k → ℕ
  | .exchange c => c.setToRun
  | .pause _ a | .iAction a => a

/-- A lambda is what the functor of the thread executes; a call is in the user code of the thread. -/
structure Fits (b : SerialTaskQueue.State (Fin k) (Closure k)) (frame : ℕ → Frame k) : Prop where
  body : ∀ i x, (frame i).body = some x → ∃ th q g t, b.threads[i]? = some th ∧
    th.job = some (q, .execute g t) ∧ x.setToRun = t.action.setToRun
  call : ∀ i c, (frame i).call = some c → ∃ th, b.threads[i]? = some th ∧ th.inUserCode = true

lemma inUserCode_of_job {Q α : Type} {th : Thread Q α} {q : Q} {g : ℕ} {t : QueuedTask α}
    (h : th.job = some (q, .execute g t)) : th.inUserCode = true := by
  unfold Thread.inUserCode
  rw [h]

/-- User code is that of a thread without a functor, or that of an action. -/
lemma inUserCode_cases {th : Thread (Fin k) (Closure k)} {f : Frame k} (h : inUserCode th f = true) :
    th.call = none ∧ f.call = none ∧
      (f.body = none ∧ th.job = none ∨ ∃ n, f.body = some (.iAction n)) := by
  unfold inUserCode at h
  rw [Bool.and_eq_true, Option.isNone_iff_eq_none] at h
  obtain ⟨hcall, h⟩ := h
  refine ⟨hcall, ?_⟩
  split at h
  next => exact ⟨rfl, .inl ⟨rfl, Option.isNone_iff_eq_none.mp h⟩⟩
  next n => exact ⟨rfl, .inr ⟨n, rfl⟩⟩
  next => cases h

/-- Threads whose frame is not empty are in user code. -/
lemma Fits.inUserCode {b : SerialTaskQueue.State (Fin k) (Closure k)} {frame : ℕ → Frame k}
    (h : Fits b frame) {i : ℕ} (hne : frame i ≠ {}) :
    ∃ th, b.threads[i]? = some th ∧ th.inUserCode = true := by
  cases hbody : (frame i).body with
  | some x =>
    obtain ⟨th, q, g, t, hth, hjob, -⟩ := h.body i x hbody
    exact ⟨th, hth, inUserCode_of_job hjob⟩
  | none =>
    cases hcall : (frame i).call with
    | some c => exact h.call i c hcall
    | none => exact absurd (congrArg₂ Frame.mk hbody hcall) hne

/-- The queues step, and no lambda ends whose frame is not empty. -/
lemma Fits.step_base {b b' : SerialTaskQueue.State (Fin k) (Closure k)} {frame : ℕ → Frame k}
    (h : Fits b frame) {l : SerialTaskQueue.Label (Fin k) (Closure k)}
    (hb : SerialTaskQueue.step b l = some b')
    (hfinish : ∀ i threw, l = .finish i threw → frame i = {}) : Fits b' frame := by
  have hkeep : ∀ i th, b.threads[i]? = some th → th.inUserCode = true → frame i ≠ {} →
      ∃ th', b'.threads[i]? = some th' ∧ th'.job = th.job := fun i th hth huser hne =>
    SerialTaskQueue.job_of_inUserCode hb hth huser fun threw hl => hne (hfinish i threw hl)
  constructor
  · intro i x hx
    obtain ⟨th, q, g, t, hth, hjob, heq⟩ := h.body i x hx
    obtain ⟨th', hth', hsame⟩ := hkeep i th hth (inUserCode_of_job hjob) (by
      intro hempty
      rw [hempty] at hx
      cases hx)
    exact ⟨th', q, g, t, hth', hsame.trans hjob, heq⟩
  · intro i c hc
    obtain ⟨th, hth, huser⟩ := h.call i c hc
    obtain ⟨th', hth', hsame⟩ := hkeep i th hth huser (by
      intro hempty
      rw [hempty] at hc
      cases hc)
    refine ⟨th', hth', ?_⟩
    unfold Thread.inUserCode at huser ⊢
    rwa [hsame]

/-- One frame changes. -/
lemma Fits.update {b : SerialTaskQueue.State (Fin k) (Closure k)} {frame : ℕ → Frame k}
    (h : Fits b frame) {i : ℕ} {f : Frame k}
    (hbody : ∀ x, f.body = some x → ∃ th q g t, b.threads[i]? = some th ∧
      th.job = some (q, .execute g t) ∧ x.setToRun = t.action.setToRun)
    (hcall : ∀ c, f.call = some c → ∃ th, b.threads[i]? = some th ∧ th.inUserCode = true) :
    Fits b (Function.update frame i f) := by
  constructor
  · intro j x hx
    by_cases hj : j = i
    · subst hj
      rw [Function.update_self] at hx
      exact hbody x hx
    · rw [Function.update_of_ne hj] at hx
      exact h.body j x hx
  · intro j c hc
    by_cases hj : j = i
    · subst hj
      rw [Function.update_self] at hc
      exact hcall c hc
    · rw [Function.update_of_ne hj] at hc
      exact h.call j c hc

/-- The next part of the same lambda. -/
lemma Fits.update_body {b : SerialTaskQueue.State (Fin k) (Closure k)} {frame : ℕ → Frame k}
    (h : Fits b frame) {i : ℕ} {x y : Body k} (hx : (frame i).body = some x)
    (heq : y.setToRun = x.setToRun) : Fits b (Function.update frame i ⟨some y, none⟩) := by
  refine h.update (fun z hz => ?_) nofun
  obtain rfl : y = z := Option.some.inj hz
  rw [heq]
  exact h.body i x hx

lemma after_of_not_loop {pt : Point (Closure k)} (h : ∀ g t, pt ≠ .loop g t) (f : Frame k) :
    f.after pt = f := by
  cases pt with
  | loop g t => exact absurd rfl (h g t)
  | _ => rfl

/-- A lambda begins to execute. -/
lemma Fits.advance {b b' : SerialTaskQueue.State (Fin k) (Closure k)} {frame : ℕ → Frame k}
    (h : Fits b frame) {i : ℕ} {th : Thread (Fin k) (Closure k)} {q : Fin k} {pt : Point (Closure k)}
    (hapart : b.Apart) (hth : b.threads[i]? = some th) (hnext : th.next? = some (q, pt))
    (hb : SerialTaskQueue.step b (.advance i) = some b') :
    Fits b' (Function.update frame i ((frame i).after pt)) := by
  have hbase : Fits b' frame := h.step_base hb nofun
  rcases pt.loop_or with ⟨g, t, rfl⟩ | hloop
  · refine hbase.update (fun x hx => ?_) nofun
    obtain rfl := Option.some.inj hx
    exact ⟨_, q, g, t, SerialTaskQueue.getElem?_of_loop hapart hth hnext hb, rfl, rfl⟩
  · rw [after_of_not_loop hloop, Function.update_eq_self]
    exact hbase

/-- **Frames and threads fit together in every reachable state.** -/
theorem fits (h : Reachable s) : Fits s.base s.frame := by
  refine h.invariant_of (J := Reachable) (I := fun s => Fits s.base s.frame) id ⟨nofun, nofun⟩
    fun s a s' hs ih _ hstep => ?_
  cases steps hstep with
  | fork hb | copy _ hb | release _ hb => exact ih.step_base hb nofun
  | resumers => exact ih
  | finish hframe hb =>
    refine ih.step_base hb fun i threw hl => ?_
    cases hl
    exact hframe
  | @enter _ i th c _ hth huser =>
    have huser' : th.inUserCode = true := by
      rcases (inUserCode_cases huser).2.2 with ⟨-, hjob⟩ | ⟨n, hbody⟩
      · unfold Thread.inUserCode
        rw [hjob]
      · obtain ⟨th', q, g, t, hth', hjob, -⟩ := ih.body i _ hbody
        obtain rfl := Option.some.inj (hth.symm.trans hth')
        exact inUserCode_of_job hjob
    exact ih.update (fun x hx => ih.body i x hx) fun _ _ => ⟨th, hth, huser'⟩
  | @pushes i c _ _ _ hcall _ hb =>
    have hbase := ih.step_base hb nofun
    exact hbase.update (fun x hx => hbase.body i x hx) fun _ _ => hbase.call i c hcall
  | @returns i => exact ih.update (fun x hx => ih.body i x hx) nofun
  | fails => exact ih.update nofun nofun
  | @claims i c hframe =>
    refine ih.update_body (x := .exchange c) (by rw [hframe]) ?_
    cases c <;> rfl
  | @pauses i q n _ hframe hb =>
    exact (ih.step_base hb nofun).update_body (x := .pause q n) (by rw [hframe]) rfl
  | actionEnds => exact ih.update nofun nofun
  | advance hth hnext hb =>
    exact ih.advance (SerialTaskQueue.apart (reachable_base hs)) hth hnext hb

/-- What an operation inside a queue does besides. -/
lemma step_advance {i : ℕ} {th : Thread (Fin k) (Closure k)} {q : Fin k} {pt : Point (Closure k)}
    (h : step s (.advance i) = some s') (hth : s.base.threads[i]? = some th)
    (hnext : th.next? = some (q, pt)) :
    s'.frame = Function.update s.frame i ((s.frame i).after pt) ∧
      s'.resumers = s.resumers ++ constructed q pt := by
  cases steps h with
  | enter _ hnew => cases hnew
  | resumers _ hnew => cases hnew
  | advance hth' hnext' hb =>
    obtain rfl := Option.some.inj (hth.symm.trans hth')
    obtain ⟨rfl, rfl⟩ := Prod.mk.inj (Option.some.inj (hnext.symm.trans hnext'))
    exact ⟨rfl, rfl⟩

/-! ## The threads of the frames -/

/-- A frame that is in use is that of a thread. -/
lemma Fits.lt_length {b : SerialTaskQueue.State (Fin k) (Closure k)} {frame : ℕ → Frame k}
    (h : Fits b frame) {i : ℕ} (hne : frame i ≠ {}) : i < b.threads.length := by
  obtain ⟨th, hth, -⟩ := h.inUserCode hne
  exact (List.getElem?_eq_some_iff.mp hth).1

/-- A thread that is about to execute a lambda has nothing left of another one. -/
lemma frame_of_loop (h : Reachable s) {i g : ℕ} {th : Thread (Fin k) (Closure k)} {q : Fin k}
    {t : QueuedTask (Closure k)} (hth : s.base.threads[i]? = some th)
    (hnext : th.next? = some (q, .loop g t)) : s.frame i = {} := by
  by_contra hne
  obtain ⟨th', hth', huser⟩ := (fits h).inUserCode hne
  obtain rfl := Option.some.inj (hth.symm.trans hth')
  rcases Thread.next?_eq hnext with hjob | hcall
  · unfold Thread.inUserCode at huser
    rw [hjob] at huser
    cases huser
  · have hapart := SerialTaskQueue.apart (reachable_base h)
    cases hapart.calls th (List.mem_of_getElem? hth) q _ hcall

/-- A thread whose frame is not empty goes on with the same functor. -/
lemma job_step (h : Reachable s) (hstep : step s a = some s') {i : ℕ} (hne : s.frame i ≠ {})
    {th : Thread (Fin k) (Closure k)} (hth : s.base.threads[i]? = some th) :
    ∃ th', s'.base.threads[i]? = some th' ∧ th'.job = th.job := by
  rcases step_base hstep with heq | ⟨b, hb, hfinish, -⟩
  · rw [heq]
    exact ⟨th, hth, rfl⟩
  · obtain ⟨th', hth', huser⟩ := (fits h).inUserCode hne
    obtain rfl := Option.some.inj (hth.symm.trans hth')
    exact SerialTaskQueue.job_of_inUserCode hb hth huser fun threw hl => hne (hfinish i threw hl)

end UnifyPrototype.LimitedTaskQueue
