import UnifyPrototype.WaitingTask.Steps

/-!
# The reference count

The count is the number of holders that have the task and of threads that own a reference. A holder
that a thread is using has the task, and who writes a holder has it to itself.
-/

namespace UnifyPrototype.WaitingTask

open UnifyPrototype.Utils

variable {E : Type} {s s' s₁ : State E}

/-- The count is in step with the references. -/
structure State.Counted (s : State E) : Prop where
  count : s.task.refCount = tally live s.holders + tally carries s.threads
  used : ∀ (i : ℕ) (pt : Point E) (h : ℕ), s.threads[i]? = some (some pt) → pt.holder = some h →
    ∃ cls, s.holders[h]? = some (some ⟨cls, true⟩)
  apart : ∀ (i j : ℕ) (p q : Point E) (h : ℕ), i ≠ j → s.threads[i]? = some (some p) →
    s.threads[j]? = some (some q) → p.holder = some h → q.holder = some h → p.writes = false

/-- What thread `i` has to keep when it goes from `p` to `p'`. -/
lemma counted_of (h : s.Counted) {i : ℕ} {p : Option (Point E)} (hi : s.threads[i]? = some p)
    (p' : Option (Point E))
    (hthreads : s'.threads = s.threads.set i p')
    (hcount : s'.task.refCount + tally live s.holders + carries p
      = s.task.refCount + tally live s'.holders + carries p')
    (hothers : ∀ (j : ℕ) (q : Point E) (h : ℕ) (x : Option Holder), j ≠ i →
      s.threads[j]? = some (some q) → q.holder = some h → s.holders[h]? = some x → s'.holders[h]? = some x)
    (hown : ∀ pt h, p' = some pt → pt.holder = some h →
      (∃ cls, s'.holders[h]? = some (some ⟨cls, true⟩)) ∧
        ∀ (j : ℕ) (q : Point E), j ≠ i → s.threads[j]? = some (some q) → q.holder = some h →
          pt.writes = false ∧ q.writes = false) : s'.Counted := by
  have hlt := (List.getElem?_eq_some_iff.mp hi).1
  have hself : s'.threads[i]? = some p' := by rw [hthreads, List.getElem?_set_self hlt]
  have hother : ∀ j, j ≠ i → s'.threads[j]? = s.threads[j]? := fun j hj => by
    rw [hthreads, List.getElem?_set_ne hj.symm]
  refine ⟨?_, fun j pt hh hj hpt => ?_, fun j k q r hh hjk hj hk hq hr => ?_⟩
  · have htally := tally_set carries p' hi
    have hbefore := h.count
    rw [hthreads]
    omega
  · by_cases hji : j = i
    · subst hji
      exact (hown pt hh (Option.some.inj (hself.symm.trans hj)) hpt).1
    · rw [hother j hji] at hj
      obtain ⟨cls, hx⟩ := h.used j pt hh hj hpt
      exact ⟨cls, hothers j pt hh _ hji hj hpt hx⟩
  · by_cases hji : j = i
    · subst hji
      rw [hother k hjk.symm] at hk
      exact ((hown q hh (Option.some.inj (hself.symm.trans hj)) hq).2 k r hjk.symm hk hr).1
    · rw [hother j hji] at hj
      by_cases hki : k = i
      · subst hki
        exact ((hown r hh (Option.some.inj (hself.symm.trans hk)) hr).2 j q hji hj hq).2
      · rw [hother k hki] at hk
        exact h.apart j k q r hh hjk hj hk hq hr

lemma counted_call (h : s.Counted) {i : ℕ} {p : Option (Point E)} (hi : s.threads[i]? = some none)
    (hstarted : Started s s₁ p) : (State.goto i (s₁, p)).Counted := by
  refine counted_of h hi p ?_ ?_ (fun j q h' x _ hj => ?_) fun pt h' hpt hh => ?_
  · show s₁.threads.set i p = _
    rw [hstarted.threads]
  · exact hstarted.count
  · exact hstarted.others q h' x (List.mem_of_getElem? hj)
  · obtain ⟨hx, hfree⟩ := hstarted.own pt h' hpt hh
    exact ⟨hx, fun j q _ hj hq => hfree q (List.mem_of_getElem? hj) hq⟩

/-- The thread goes on with the same holder. -/
lemma counted_same (h : s.Counted) {i : ℕ} {p p' : Point E} (hi : s.threads[i]? = some (some p))
    (hholder : p'.holder = p.holder) (hwrites : p'.writes = p.writes)
    (hcarries : carries (some p') = carries (some p)) (hthreads : s₁.threads = s.threads)
    (hholders : s₁.holders = s.holders) (hcount : s₁.task.refCount = s.task.refCount) :
    (State.goto i (s₁, some p')).Counted := by
  refine counted_of h hi (some p') ?_ ?_ (fun j q h' x _ _ _ hx => ?_) fun pt h' hpt hh => ?_
  · show s₁.threads.set i _ = _
    rw [hthreads]
  · show s₁.task.refCount + _ + _ = s.task.refCount + tally live s₁.holders + _
    rw [hcount, hholders, hcarries]
  · show s₁.holders[h']? = _
    rw [hholders, hx]
  · obtain rfl := Option.some.inj hpt
    rw [hholder] at hh
    refine ⟨?_, fun j q hj hq hqh => ?_⟩
    · show ∃ cls, s₁.holders[h']? = _
      rw [hholders]
      exact h.used i p h' hi hh
    · rw [hwrites]
      exact ⟨h.apart i j p q h' hj.symm hi hq hh hqh, h.apart j i q p h' hj hq hi hqh hh⟩

/-- The end of `dependentTaskFailed`. -/
lemma counted_goOn (h : s.Counted) {i h' : ℕ} {p : Point E} {c : Reporter}
    (hi : s.threads[i]? = some (some p)) (hholder : p.holder = some h')
    (hwrites : p.writes = decide (c = .doneWaiting)) (hcarries : carries (some p) = 0)
    (hthreads : s₁.threads = s.threads) (hholders : s₁.holders = s.holders)
    (hcount : s₁.task.refCount = s.task.refCount) : (State.goto i (c.goOn s₁ h')).Counted := by
  obtain ⟨cls, hx⟩ := h.used i p h' hi hholder
  cases c with
  | presetTaskAsFailed =>
    refine counted_of h hi none ?_ ?_ (fun j q k x _ _ _ hk => ?_) (by simp)
    · show s₁.threads.set i _ = _
      rw [hthreads]
      rfl
    · show s₁.task.refCount + _ + _ = s.task.refCount + tally live s₁.holders + _
      rw [hcount, hholders, hcarries]
      rfl
    · show s₁.holders[k]? = _
      rw [hholders, hk]
  | doneWaiting =>
    have hx₁ : s₁.holders[h']? = some (some ⟨cls, true⟩) := by rw [hholders, hx]
    have hgoOn : Reporter.goOn s₁ h' .doneWaiting
        = (s₁.setHolder h' cls false, some (.decrement cls)) := by
      simp [Reporter.goOn, hx₁]
    rw [hgoOn]
    refine counted_of h hi (some (.decrement cls)) ?_ ?_ (fun j q k x hj hq hqk hk => ?_) ?_
    · show s₁.threads.set i _ = _
      rw [hthreads]
    · have hset := live_setHolder hx₁ cls false
      rw [hholders] at hset
      simp only [Bool.toNat_false, Bool.toNat_true] at hset
      show s₁.task.refCount + _ + _
        = s.task.refCount + tally live (s₁.setHolder h' cls false).holders + 1
      rw [hcount, hcarries]
      omega
    · -- no other thread uses the holder that `doneWaiting` writes
      have hne : h' ≠ k := by
        rintro rfl
        have hapart := h.apart i j p q h' hj.symm hi hq hholder hqk
        rw [hwrites] at hapart
        cases hapart
      refine (getElem?_setHolder hne cls false).trans ?_
      rw [hholders, hk]
    · rintro pt k hpt hk
      obtain rfl := Option.some.inj hpt
      cases hk

lemma counted_advance (h : s.Counted) {i : ℕ} {p : Point E} (hi : s.threads[i]? = some (some p)) :
    (State.goto i (p.step s)).Counted := by
  -- the reference that the thread is about to give up is there
  have hcarry : carries (some p) ≤ s.task.refCount := by
    have hle := le_tally carries hi
    have hcount := h.count
    omega
  cases p with
  | exchange h' e c =>
    simp only [Point.step]
    split
    · exact counted_same h hi rfl rfl rfl rfl rfl rfl
    · exact counted_goOn h hi rfl rfl rfl rfl rfl rfl
  | setPtr h' e c => exact counted_same h hi rfl rfl rfl rfl rfl rfl
  | setState h' c => exact counted_goOn h hi rfl rfl rfl rfl rfl rfl
  | decrement cls =>
    refine counted_of h hi _ rfl ?_ (fun j q k x _ _ _ hk => hk) ?_
    · show s.task.refCount - 1 + _ + 1 = s.task.refCount + tally live s.holders + _
      have hone : 1 ≤ s.task.refCount := hcarry
      have hnone : carries (if 0 = s.task.refCount - 1 then some (Point.handOver (E := E) cls)
          else none) = 0 := by
        split <;> rfl
      have hsame : carries (Point.step s (.decrement cls)).2 = 0 := hnone
      rw [hsame]
      omega
    · rintro pt k hpt hk
      simp only [Point.step] at hpt
      split at hpt
      · obtain rfl := Option.some.inj hpt
        cases hk
      · cases hpt
  | handOver cls =>
    cases cls <;>
      exact counted_of h hi none rfl rfl (fun j q k x _ _ _ hk => hk) (by simp)
  | release h' =>
    obtain ⟨cls, hx⟩ := h.used i _ h' hi rfl
    refine counted_of h hi none rfl ?_ (fun j q k x hj hq hqk hk => ?_) (by simp)
    · have hset := live_setHolder (s := s) hx .arenaHolder false
      simp only [Bool.toNat_false, Bool.toNat_true] at hset
      have hone : 1 ≤ s.task.refCount := hcarry
      show s.task.refCount - 1 + tally live s.holders + 1
        = s.task.refCount + tally live ((s.setHolder h' .arenaHolder false).addHolder
          .taskHolder true).holders + 0
      rw [live_addHolder, Bool.toNat_true]
      omega
    · have hne : h' ≠ k := by
        rintro rfl
        -- no two threads use one holder
        have hapart := h.apart i j _ q h' hj.symm hi hq rfl hqk
        cases hapart
      exact getElem?_addHolder ((getElem?_setHolder hne _ _).trans hk) _ _

/-- Every step keeps the count in step with the references. -/
lemma counted_step {b : Label E} (h : s.Counted) (hstep : step s b = some s') : s'.Counted := by
  cases b with
  | fork =>
    obtain rfl := Option.some.inj hstep
    refine ⟨?_, fun i pt k hi => h.used i pt k (getElem?_fork hi), fun i j p q k hij hi hj =>
      h.apart i j p q k hij (getElem?_fork hi) (getElem?_fork hj)⟩
    rw [tally_append]
    exact h.count
  | call i op =>
    simp only [step] at hstep
    split at hstep
    next hi =>
      obtain ⟨⟨s₁, p⟩, hstart, rfl⟩ := Option.map_eq_some_iff.mp hstep
      exact counted_call h hi (started hstart)
    next => cases hstep
  | advance i =>
    simp only [step] at hstep
    split at hstep
    next pt hi =>
      obtain rfl := Option.some.inj hstep
      exact counted_advance h hi
    next => cases hstep
  | arena =>
    simp only [step] at hstep
    split at hstep
    next => cases hstep
    next =>
      obtain rfl := Option.some.inj hstep
      exact ⟨h.count, h.used, h.apart⟩
  | group =>
    simp only [step] at hstep
    split at hstep
    next => cases hstep
    next =>
      obtain rfl := Option.some.inj hstep
      exact ⟨h.count, h.used, h.apart⟩

theorem counted (h : Reachable s) : s.Counted := by
  refine h.invariant ⟨rfl, ?_, ?_⟩ fun _ _ _ hs _ hstep => counted_step hs hstep
  · simp
  · simp

/-- **`m_refCount` does not wrap** while fewer than `2 ^ 32` holders and threads have a reference. The
word has room for the count, and where a thread decrements, the word is decremented and comes to
zero as the count does. -/
theorem refCount_shows (h : Reachable s)
    (hfew : tally live s.holders + tally carries s.threads < 2 ^ 32) :
    s.task.refCount < 2 ^ 32 ∧ ∀ c : BitVec 32, Shows c s.task.refCount →
      ∀ (i : ℕ) (pt : Point E), s.threads[i]? = some (some pt) → carries (some pt) = 1 →
        Shows (c - 1#32) s.task.decrementRefCount.1.refCount ∧
          (0#32 = c - 1#32 ↔ 0 = s.task.decrementRefCount.2) := by
  have hcount := (counted h).count
  refine ⟨hcount.trans_lt hfew, fun c hc i pt hi hcarries => ?_⟩
  apply Task.decrementRefCount_shows hc
  have hle := le_tally carries hi
  omega

/-! ## The hand-over -/

/-- One for a thread whose decrement came to zero and that is about to hand the task over. -/
def handing : Option (Point E) → ℕ
  | some (.handOver _) => 1
  | _ => 0

/-- How often the task was handed over, to the arena or to the group. -/
def State.handed (s : State E) : ℕ :=
  s.enqueued + s.run + s.executed.length

/-- The task is handed over once, or about to be, from when the count has come to zero. -/
structure State.HandedOver (s : State E) : Prop where
  once : tally handing s.threads + s.handed = if s.wrapped = true ∧ s.task.refCount = 0 then 1 else 0
  fresh : s.wrapped = false → s.task.refCount = 0

lemma handing_of_begins {p : Option (Point E)} (h : Begins s s₁ p) : handing p = 0 := by
  cases h <;> rfl

lemma handed_eq (h : (s₁.enqueued, s₁.run, s₁.executed) = (s.enqueued, s.run, s.executed)) :
    s₁.handed = s.handed := by
  simp only [Prod.mk.injEq] at h
  simp only [State.handed, h]

lemma handedOver_call (hcounted : s.Counted) (h : s.HandedOver) {i : ℕ} {p : Option (Point E)}
    (hi : s.threads[i]? = some none) (hstarted : Started s s₁ p) :
    (State.goto i (s₁, p)).HandedOver := by
  have hset := tally_set handing p hi
  have honce := h.once
  have hcount := hcounted.count
  have htally : tally handing (State.goto i (s₁, p)).threads + (State.goto i (s₁, p)).handed
      = tally handing s.threads + s.handed := by
    show tally handing (s₁.threads.set i p) + s₁.handed = _
    rw [hstarted.threads, handed_eq hstarted.out]
    rw [handing_of_begins hstarted.begins] at hset
    simp only [handing, Nat.add_zero] at hset
    rw [hset]
  refine ⟨htally.trans (honce.trans ?_), ?_⟩
  · show _ = if s₁.wrapped = true ∧ s₁.task.refCount = 0 then 1 else 0
    cases hstarted.counts with
    | same hrefs hwrapped => rw [hrefs, hwrapped]
    | again hrefs _ hlive =>
      rw [if_neg (by omega), if_neg (by omega)]
    | first hrefs hbefore => rw [if_neg (by simp [hbefore]), if_neg (by omega)]
  · show s₁.wrapped = false → s₁.task.refCount = 0
    cases hstarted.counts with
    | same hrefs hwrapped =>
      rw [hrefs, hwrapped]
      exact h.fresh
    | again hrefs hwrapped hlive =>
      intro hnot
      have hzero := h.fresh (hwrapped ▸ hnot)
      omega
    | first _ _ hwrapped => simp [hwrapped]

/-- A step of a thread that does not touch the count. -/
lemma handedOver_same (h : s.HandedOver) {i : ℕ} {p : Option (Point E)}
    (hi : s.threads[i]? = some p) (p' : Option (Point E)) (hthreads : s'.threads = s.threads.set i p')
    (hhanding : handing p' + s'.handed = handing p + s.handed)
    (hcount : s'.task.refCount = s.task.refCount) (hwrapped : s'.wrapped = s.wrapped) :
    s'.HandedOver := by
  have hset := tally_set handing p' hi
  refine ⟨?_, by rw [hcount, hwrapped]; exact h.fresh⟩
  rw [hthreads, hcount, hwrapped, ← h.once]
  omega

lemma handedOver_goOn (h : s.HandedOver) {i h' : ℕ} {p : Point E} {c : Reporter}
    (hi : s.threads[i]? = some (some p)) (hp : handing (some p) = 0)
    (hthreads : s₁.threads = s.threads) (hout : s₁.handed = s.handed)
    (hcount : s₁.task.refCount = s.task.refCount) (hwrapped : s₁.wrapped = s.wrapped) :
    (State.goto i (c.goOn s₁ h')).HandedOver := by
  cases c with
  | presetTaskAsFailed =>
    refine handedOver_same h hi none ?_ ?_ hcount hwrapped
    · show s₁.threads.set i none = _
      rw [hthreads]
    · rw [hp]
      exact congrArg (0 + ·) hout
  | doneWaiting =>
    simp only [Reporter.goOn]
    split
    next cls _ _ =>
      refine handedOver_same h hi (some (.decrement cls)) ?_ ?_ hcount hwrapped
      · show s₁.threads.set i _ = _
        rw [hthreads]
      · rw [hp]
        exact congrArg (0 + ·) hout
    next =>
      refine handedOver_same h hi none ?_ ?_ hcount hwrapped
      · show s₁.threads.set i none = _
        rw [hthreads]
      · rw [hp]
        exact congrArg (0 + ·) hout

lemma handedOver_advance (hcounted : s.Counted) (h : s.HandedOver) {i : ℕ} {p : Point E}
    (hi : s.threads[i]? = some (some p)) : (State.goto i (p.step s)).HandedOver := by
  have hcarry := le_tally carries hi
  have hcount := hcounted.count
  cases p with
  | exchange h' e c =>
    simp only [Point.step]
    split
    · exact handedOver_same h hi (some (.setPtr h' e c)) rfl rfl rfl rfl
    · exact handedOver_goOn h hi rfl rfl rfl rfl rfl
  | setPtr h' e c => exact handedOver_same h hi (some (.setState h' c)) rfl rfl rfl rfl
  | setState h' c => exact handedOver_goOn h hi rfl rfl rfl rfl rfl
  | decrement cls =>
    have hone : 1 ≤ tally carries s.threads := hcarry
    have hwrapped : s.wrapped = true := by
      by_contra hnot
      have hzero := h.fresh (by simpa using hnot)
      omega
    have honce := h.once
    rw [if_neg (by omega)] at honce
    have hset := tally_set handing (Point.step s (.decrement cls)).2 hi
    refine ⟨?_, fun hnot => ?_⟩
    · show tally handing (s.threads.set i _) + s.handed
        = if s.wrapped = true ∧ s.task.refCount - 1 = 0 then 1 else 0
      rw [show handing (some (Point.decrement (E := E) cls)) = 0 from rfl] at hset
      by_cases hzero : s.task.refCount - 1 = 0
      · -- the decrement that comes to zero hands the task over
        rw [if_pos ⟨hwrapped, hzero⟩]
        have hafter : handing (Point.step s (.decrement cls)).2 = 1 := by
          simp [Point.step, Task.decrementRefCount, hzero, handing]
        omega
      · rw [if_neg fun hc => hzero hc.2]
        have hafter : handing (Point.step s (.decrement cls)).2 = 0 := by
          simp [Point.step, Task.decrementRefCount, Ne.symm hzero, handing]
        omega
    · rw [show (State.goto i (Point.step s (.decrement cls))).wrapped = s.wrapped from rfl,
        hwrapped] at hnot
      cases hnot
  | handOver cls =>
    cases cls with
    | taskHolder =>
      refine handedOver_same h hi none rfl ?_ rfl rfl
      simp only [State.goto, Point.step, State.handed, handing]
      omega
    | arenaHolder =>
      refine handedOver_same h hi none rfl ?_ rfl rfl
      simp only [State.goto, Point.step, State.handed, handing]
      omega
  | release h' =>
    -- the old holder and the new one both have the task, so the count does not come to zero
    obtain ⟨cls, hx⟩ := hcounted.used i _ h' hi rfl
    have hlive := live_pos hx
    have hone : 1 ≤ tally carries s.threads := hcarry
    have honce := h.once
    rw [if_neg (by omega)] at honce
    have hset := tally_set handing none hi
    rw [show handing (some (Point.release (E := E) h')) = 0 from rfl] at hset
    refine ⟨?_, fun hnot => ?_⟩
    · show tally handing (s.threads.set i none) + s.handed
        = if s.wrapped = true ∧ s.task.refCount - 1 = 0 then 1 else 0
      have hnone : handing (none : Option (Point E)) = 0 := rfl
      rw [if_neg (by omega)]
      omega
    · have hzero := h.fresh hnot
      omega

/-- Each step keeps it: the task is handed over by the decrement that comes to zero. -/
lemma handedOver_step {b : Label E} (hcounted : s.Counted) (h : s.HandedOver)
    (hstep : step s b = some s') : s'.HandedOver := by
  cases b with
  | fork =>
    obtain rfl := Option.some.inj hstep
    refine ⟨?_, h.fresh⟩
    rw [tally_append]
    exact h.once
  | call i op =>
    simp only [step] at hstep
    split at hstep
    next hi =>
      obtain ⟨⟨s₁, p⟩, hstart, rfl⟩ := Option.map_eq_some_iff.mp hstep
      exact handedOver_call hcounted h hi (started hstart)
    next => cases hstep
  | advance i =>
    simp only [step] at hstep
    split at hstep
    next pt hi =>
      obtain rfl := Option.some.inj hstep
      exact handedOver_advance hcounted h hi
    next => cases hstep
  | arena =>
    simp only [step] at hstep
    split at hstep
    next => cases hstep
    next =>
      obtain rfl := Option.some.inj hstep
      have honce := h.once
      refine ⟨?_, h.fresh⟩
      unfold State.handed at honce ⊢
      dsimp only
      omega
  | group =>
    simp only [step] at hstep
    split at hstep
    next => cases hstep
    next =>
      obtain rfl := Option.some.inj hstep
      have honce := h.once
      refine ⟨?_, h.fresh⟩
      unfold State.handed at honce ⊢
      simp only [List.length_append, List.length_singleton]
      omega

theorem handedOver (h : Reachable s) : s.HandedOver :=
  h.invariant_of counted ⟨rfl, fun _ => rfl⟩ fun _ _ _ hcounted hs _ hstep =>
    handedOver_step hcounted hs hstep

end UnifyPrototype.WaitingTask
