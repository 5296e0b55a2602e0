import UnifyPrototype.WaitingTask.References

/-!
# The exception of a task

`dependentTaskFailed` lets one reporter write `m_ptr`. While it does, its holder keeps the count
above zero, so whoever executes the task finds `m_ptr` written, or never to be written.
-/

namespace UnifyPrototype.WaitingTask

open UnifyPrototype.Utils

variable {E : Type} {s s' s₁ : State E}

/-- One for a thread that has won the exchange and has not set `kSet` yet. -/
def setting : Option (Point E) → ℕ
  | some (.setPtr _ _ _) | some (.setState _ _) => 1
  | _ => 0

/-- The thread is inside `dependentTaskFailed`. -/
def Point.reports : Point E → Bool
  | .exchange _ _ _ | .setPtr _ _ _ | .setState _ _ => true
  | .decrement _ | .handOver _ | .release _ => false

/-- A thread outside `dependentTaskFailed` is not setting the exception. -/
lemma setting_eq_zero {p : Option (Point E)} (hp : ∀ pt, p = some pt → pt.reports = false) :
    setting p = 0 := by
  cases p with
  | none => rfl
  | some pt =>
    have hno := hp pt rfl
    cases pt with
    | exchange | setPtr | setState => cases hno
    | decrement | handOver | release => rfl

/-- What `m_ptr` and `m_ptrSet` say. -/
structure State.Failed (s : State E) : Prop where
  setting : tally setting s.threads = if s.task.ptrSet = .setting then 1 else 0
  unset : s.task.ptrSet = .unset → s.task.ptr = none ∧ s.winner = none
  won : s.task.ptrSet ≠ .unset → s.winner ≠ none
  setPtr : ∀ (i h : ℕ) (e : E) (c : Reporter), s.threads[i]? = some (some (.setPtr h e c)) →
    s.winner = some e
  setState : ∀ (i h : ℕ) (c : Reporter), s.threads[i]? = some (some (.setState h c)) →
    s.task.ptr = s.winner
  set : s.task.ptrSet = .set → s.task.ptr = s.winner
  winner : ∀ e, s.winner = some e → e ∈ s.reported
  exchange : ∀ (i h : ℕ) (e : E) (c : Reporter), s.threads[i]? = some (some (.exchange h e c)) →
    e ∈ s.reported
  pending : s.reported ≠ [] → s.task.ptrSet = .unset →
    ∃ (i h : ℕ) (e : E) (c : Reporter), s.threads[i]? = some (some (.exchange h e c))

/-- Thread `i` is outside `dependentTaskFailed` before and after, and nothing is reported. -/
lemma failed_frame (h : s.Failed) {i : ℕ} {p p' : Option (Point E)} (hi : s.threads[i]? = some p)
    (hp : ∀ pt, p = some pt → pt.reports = false) (hp' : ∀ pt, p' = some pt → pt.reports = false)
    (hthreads : s'.threads = s.threads.set i p')
    (hslot : (s'.task.ptr, s'.task.ptrSet, s'.winner) = (s.task.ptr, s.task.ptrSet, s.winner))
    (hreported : s'.reported = s.reported) : s'.Failed := by
  obtain ⟨hptr, hset, hwinner⟩ := by simpa only [Prod.mk.injEq] using hslot
  have hback : ∀ (j : ℕ) (pt : Point E), s'.threads[j]? = some (some pt) → pt.reports = true →
      s.threads[j]? = some (some pt) := by
    intro j pt hj hpt
    rw [hthreads] at hj
    rcases getElem?_goto hj with ⟨-, hq⟩ | ⟨-, hq⟩
    · rw [hp' pt hq] at hpt
      cases hpt
    · exact hq
  have htally := tally_set WaitingTask.setting p' hi
  rw [setting_eq_zero hp, setting_eq_zero hp'] at htally
  refine ⟨?_, ?_, ?_, fun j k e c hj => ?_, fun j k c hj => ?_, ?_, ?_, fun j k e c hj => ?_,
    fun hne hunset => ?_⟩
  · rw [hthreads, hset]
    exact htally.trans h.setting
  · rw [hset, hptr, hwinner]
    exact h.unset
  · rw [hset, hwinner]
    exact h.won
  · rw [hwinner]
    exact h.setPtr j k e c (hback j _ hj rfl)
  · rw [hptr, hwinner]
    exact h.setState j k c (hback j _ hj rfl)
  · rw [hset, hptr, hwinner]
    exact h.set
  · rw [hwinner, hreported]
    exact h.winner
  · rw [hreported]
    exact h.exchange j k e c (hback j _ hj rfl)
  · rw [hreported] at hne
    rw [hset] at hunset
    obtain ⟨j, k, e, c, hj⟩ := h.pending hne hunset
    refine ⟨j, k, e, c, ?_⟩
    have hne' : i ≠ j := by
      rintro rfl
      have hreports := hp _ (Option.some.inj (hi.symm.trans hj))
      cases hreports
    rw [hthreads, List.getElem?_set_ne hne', hj]

lemma failed_call (h : s.Failed) {i : ℕ} {p : Option (Point E)} (hi : s.threads[i]? = some none)
    (hstarted : Started s s₁ p) : (State.goto i (s₁, p)).Failed := by
  have hthreads : (State.goto i (s₁, p)).threads = s.threads.set i p := by
    show s₁.threads.set i p = _
    rw [hstarted.threads]
  have hlt := (List.getElem?_eq_some_iff.mp hi).1
  cases hstarted.begins with
  | returned hreported =>
    exact failed_frame h hi (by simp) (by simp) hthreads hstarted.slot hreported
  | decrement cls hreported =>
    exact failed_frame h hi (by simp) (by simp [Point.reports]) hthreads hstarted.slot hreported
  | release k hreported =>
    exact failed_frame h hi (by simp) (by simp [Point.reports]) hthreads hstarted.slot hreported
  | exchange k e c hreported =>
    obtain ⟨hptr, hset, hwinner⟩ := by simpa only [Prod.mk.injEq] using hstarted.slot
    have hreported' : (State.goto i (s₁, some (.exchange k e c))).reported = s.reported ++ [e] :=
      hreported
    -- who sets the pointer is another thread, as before
    have hback : ∀ (j : ℕ) (pt : Point E), (s.threads.set i (some (.exchange k e c)))[j]?
        = some (some pt) → setting (some pt) = 1 → s.threads[j]? = some (some pt) := by
      intro j pt hj hpt
      rcases getElem?_goto hj with ⟨-, hq⟩ | ⟨-, hq⟩
      · obtain rfl := Option.some.inj hq
        cases hpt
      · exact hq
    have htally := tally_set setting (some (.exchange k e c)) hi
    refine ⟨?_, ?_, ?_, fun j k' e' c' hj => ?_, fun j k' c' hj => ?_, ?_, ?_,
      fun j k' e' c' hj => ?_, fun _ _ => ⟨i, k, e, c, ?_⟩⟩
    · show tally setting (State.goto i (s₁, _)).threads = if s₁.task.ptrSet = .setting then 1 else 0
      rw [hthreads, hset]
      exact htally.trans h.setting
    · show s₁.task.ptrSet = .unset → s₁.task.ptr = none ∧ s₁.winner = none
      rw [hset, hptr, hwinner]
      exact h.unset
    · show s₁.task.ptrSet ≠ .unset → s₁.winner ≠ none
      rw [hset, hwinner]
      exact h.won
    · rw [hthreads] at hj
      exact hwinner.trans (h.setPtr j k' e' c' (hback j _ hj rfl))
    · rw [hthreads] at hj
      exact hptr.trans ((h.setState j k' c' (hback j _ hj rfl)).trans hwinner.symm)
    · show s₁.task.ptrSet = .set → s₁.task.ptr = s₁.winner
      rw [hset, hptr, hwinner]
      exact h.set
    · rw [hreported']
      intro e' he'
      exact List.mem_append_left _ (h.winner e' (hwinner ▸ he'))
    · rw [hreported']
      rw [hthreads] at hj
      rcases getElem?_goto hj with ⟨-, hq⟩ | ⟨-, hq⟩
      · obtain ⟨-, rfl, -⟩ := by simpa using hq
        exact List.mem_append_right _ (List.mem_singleton_self _)
      · exact List.mem_append_left _ (h.exchange j k' e' c' hq)
    · rw [hthreads, List.getElem?_set_self hlt]

/-- The winner of the exchange. -/
lemma failed_win (h : s.Failed) {i k : ℕ} {e : E} {c : Reporter}
    (hi : s.threads[i]? = some (some (.exchange k e c))) (hunset : s.task.ptrSet = .unset) :
    (State.goto i (Point.step s (.exchange k e c))).Failed := by
  have hstep : Point.step s (.exchange k e c)
      = ({ s with task := { s.task with ptrSet := .setting }, winner := some e },
        some (.setPtr k e c)) := by
    rw [Point.step, if_pos hunset]
  rw [hstep]
  have htally := tally_set setting (some (.setPtr k e c)) hi
  have hnone := h.setting
  rw [if_neg (by rw [hunset]; decide)] at hnone
  -- nobody else is about to write the pointer
  have hquiet : ∀ (j : ℕ) (pt : Point E), s.threads[j]? = some (some pt) →
      setting (some pt) = 0 := fun j pt hj => by
    have hle := le_tally setting hj
    omega
  refine ⟨?_, (fun hc => by cases hc), (fun _ hc => by cases hc), fun j k' e' c' hj => ?_,
    fun j k' c' hj => ?_, (fun hc => by cases hc), ?_, fun j k' e' c' hj => ?_,
    (fun _ hc => by cases hc)⟩
  · show tally setting (s.threads.set i (some (.setPtr k e c))) = 1
    rw [show setting (some (Point.exchange k e c)) = 0 from rfl,
      show setting (some (Point.setPtr k e c)) = 1 from rfl] at htally
    omega
  · rcases getElem?_goto hj with ⟨-, hq⟩ | ⟨-, hq⟩
    · obtain ⟨-, rfl, -⟩ := by simpa using hq
      rfl
    · cases hquiet j _ hq
  · rcases getElem?_goto hj with ⟨-, hq⟩ | ⟨-, hq⟩
    · cases hq
    · cases hquiet j _ hq
  · intro e' he'
    obtain rfl := Option.some.inj he'
    exact h.exchange i k e c hi
  · rcases getElem?_goto hj with ⟨-, hq⟩ | ⟨-, hq⟩
    · cases hq
    · exact h.exchange j k' e' c' hq

/-- The winner writes the pointer. -/
lemma failed_setPtr (h : s.Failed) {i k : ℕ} {e : E} {c : Reporter}
    (hi : s.threads[i]? = some (some (.setPtr k e c))) :
    (State.goto i (Point.step s (.setPtr k e c))).Failed := by
  have htally := tally_set setting (some (.setState k c)) hi
  rw [show setting (some (Point.setPtr k e c)) = 1 from rfl,
    show setting (some (Point.setState (E := E) k c)) = 1 from rfl] at htally
  have hsetting : s.task.ptrSet = .setting := by
    have hle := le_tally setting hi
    have hone := h.setting
    by_contra hne
    rw [if_neg hne] at hone
    rw [show setting (some (Point.setPtr k e c)) = 1 from rfl] at hle
    omega
  have hwinner := h.setPtr i k e c hi
  refine ⟨?_, fun hc => ?_, fun _ => ?_, fun j k' e' c' hj => ?_, fun j k' c' hj => ?_, fun hc => ?_,
    h.winner, fun j k' e' c' hj => ?_, fun _ hc => ?_⟩
  · show tally setting (s.threads.set i (some (.setState k c)))
      = if s.task.ptrSet = .setting then 1 else 0
    rw [← h.setting]
    omega
  · exact absurd (hsetting.symm.trans hc) (by decide)
  · exact h.won (by rw [hsetting]; decide)
  · rcases getElem?_goto hj with ⟨-, hq⟩ | ⟨-, hq⟩
    · cases hq
    · exact h.setPtr j k' e' c' hq
  · exact hwinner.symm
  · exact absurd (hsetting.symm.trans hc) (by decide)
  · rcases getElem?_goto hj with ⟨-, hq⟩ | ⟨-, hq⟩
    · cases hq
    · exact h.exchange j k' e' c' hq
  · exact absurd (hsetting.symm.trans hc) (by decide)

/-- A thread leaves `dependentTaskFailed`, after which the pointer has a winner. -/
lemma failed_leave (h : s.Failed) {i : ℕ} {p' : Option (Point E)}
    (hp' : ∀ pt, p' = some pt → pt.reports = false)
    (hthreads : s'.threads = s.threads.set i p') (hptr : s'.task.ptr = s.task.ptr)
    (hwinner : s'.winner = s.winner) (hreported : s'.reported = s.reported)
    (hunset : s'.task.ptrSet ≠ .unset) (hwon : s.winner ≠ none)
    (hset : s'.task.ptrSet = .set → s.task.ptr = s.winner)
    (hsetting : tally setting s'.threads = if s'.task.ptrSet = .setting then 1 else 0) :
    s'.Failed := by
  have hback : ∀ (j : ℕ) (pt : Point E), s'.threads[j]? = some (some pt) → pt.reports = true →
      s.threads[j]? = some (some pt) := by
    intro j pt hj hpt
    rw [hthreads] at hj
    rcases getElem?_goto hj with ⟨-, hq⟩ | ⟨-, hq⟩
    · rw [hp' pt hq] at hpt
      cases hpt
    · exact hq
  refine ⟨hsetting, fun hc => absurd hc hunset, fun _ => hwinner ▸ hwon, fun j k e c hj => ?_,
    fun j k c hj => ?_, fun hc => ?_, ?_, fun j k e c hj => ?_, fun _ hc => absurd hc hunset⟩
  · rw [hwinner]
    exact h.setPtr j k e c (hback j _ hj rfl)
  · rw [hptr, hwinner]
    exact h.setState j k c (hback j _ hj rfl)
  · rw [hptr, hwinner]
    exact hset hc
  · rw [hwinner, hreported]
    exact h.winner
  · rw [hreported]
    exact h.exchange j k e c (hback j _ hj rfl)

/-- Where a thread is after `dependentTaskFailed`. -/
lemma goOn_cases (s : State E) (k : ℕ) (c : Reporter) :
    (∀ pt, (c.goOn s k).2 = some pt → pt.reports = false) ∧ (c.goOn s k).1.threads = s.threads ∧
      (c.goOn s k).1.task = s.task ∧ (c.goOn s k).1.winner = s.winner ∧
      (c.goOn s k).1.reported = s.reported := by
  cases c with
  | presetTaskAsFailed => exact ⟨by simp [Reporter.goOn], rfl, rfl, rfl, rfl⟩
  | doneWaiting =>
    simp only [Reporter.goOn]
    split
    · exact ⟨by simp [Point.reports], rfl, rfl, rfl, rfl⟩
    · exact ⟨by simp, rfl, rfl, rfl, rfl⟩

lemma failed_advance (h : s.Failed) {i : ℕ} {p : Point E} (hi : s.threads[i]? = some (some p)) :
    (State.goto i (p.step s)).Failed := by
  cases p with
  | exchange k e c =>
    by_cases hunset : s.task.ptrSet = .unset
    · exact failed_win h hi hunset
    · -- another reporter has won
      have hlost : Point.step s (.exchange k e c) = c.goOn s k := by
        rw [Point.step, if_neg hunset]
      obtain ⟨hp', hthreads, htask, hwinner, hreported⟩ := goOn_cases s k c
      have hzero : setting (c.goOn s k).2 = 0 := setting_eq_zero hp'
      have htally := tally_set setting (c.goOn s k).2 hi
      rw [hzero] at htally
      rw [hlost]
      refine failed_leave h hp' (by rw [← hthreads]; rfl) (congrArg Task.ptr htask) hwinner
        hreported ?_ (h.won hunset) ?_ ?_
      · exact fun hc => hunset ((congrArg Task.ptrSet htask).symm.trans hc)
      · exact fun hc => h.set ((congrArg Task.ptrSet htask).symm.trans hc)
      · show tally setting ((c.goOn s k).1.threads.set i _)
          = if (c.goOn s k).1.task.ptrSet = .setting then 1 else 0
        rw [hthreads, htask, ← h.setting]
        exact htally
  | setPtr k e c => exact failed_setPtr h hi
  | setState k c =>
    obtain ⟨hp', hthreads, htask, hwinner, hreported⟩ :=
      goOn_cases { s with task := { s.task with ptrSet := .set } } k c
    have hvalue := h.setState i k c hi
    have hone := h.setting
    have hle := le_tally setting hi
    rw [show setting (some (Point.setState (E := E) k c)) = 1 from rfl] at hle
    have hsetting : s.task.ptrSet = .setting := by
      by_contra hne
      rw [if_neg hne] at hone
      omega
    rw [if_pos hsetting] at hone
    have hset : (Point.step s (.setState k c)).1.task.ptrSet = .set := congrArg Task.ptrSet htask
    refine failed_leave (i := i) h hp' ?_ (congrArg Task.ptr htask :) hwinner hreported ?_
      (h.won (by rw [hsetting]; decide)) (fun _ => hvalue) ?_
    · exact congrArg (List.set · i _) hthreads
    · intro hc
      cases hset.symm.trans hc
    · have hzero : setting (Point.step s (.setState k c)).2 = 0 := setting_eq_zero hp'
      have htally := tally_set setting (Point.step s (.setState k c)).2 hi
      rw [show setting (some (Point.setState (E := E) k c)) = 1 from rfl] at htally
      show tally setting ((Point.step s (.setState k c)).1.threads.set i _)
        = if (Point.step s (.setState k c)).1.task.ptrSet = .setting then 1 else 0
      rw [show (Point.step s (.setState k c)).1.threads = s.threads from hthreads,
        hset, if_neg (by decide)]
      omega
  | decrement cls =>
    refine failed_frame h hi (by simp [Point.reports]) ?_ rfl rfl rfl
    intro pt hpt
    simp only [Point.step] at hpt
    split at hpt
    · obtain rfl := Option.some.inj hpt
      rfl
    · cases hpt
  | handOver cls =>
    cases cls <;> exact failed_frame h hi (by simp [Point.reports]) (by simp [Point.step]) rfl rfl rfl
  | release k =>
    exact failed_frame h hi (by simp [Point.reports]) (by simp [Point.step]) rfl rfl rfl

lemma failed_step {b : Label E} (h : s.Failed) (hstep : step s b = some s') : s'.Failed := by
  cases b with
  | fork =>
    obtain rfl := Option.some.inj hstep
    refine ⟨?_, h.unset, h.won, fun i k e c hi => h.setPtr i k e c (getElem?_fork hi),
      fun i k c hi => h.setState i k c (getElem?_fork hi), h.set, h.winner,
      fun i k e c hi => h.exchange i k e c (getElem?_fork hi), fun hne hunset => ?_⟩
    · rw [tally_append]
      exact h.setting
    · obtain ⟨i, k, e, c, hi⟩ := h.pending hne hunset
      refine ⟨i, k, e, c, ?_⟩
      rw [List.getElem?_append_left (List.getElem?_eq_some_iff.mp hi).1, hi]
  | call i op =>
    simp only [step] at hstep
    split at hstep
    next hi =>
      obtain ⟨⟨s₁, p⟩, hstart, rfl⟩ := Option.map_eq_some_iff.mp hstep
      exact failed_call h hi (started hstart)
    next => cases hstep
  | advance i =>
    simp only [step] at hstep
    split at hstep
    next pt hi =>
      obtain rfl := Option.some.inj hstep
      exact failed_advance h hi
    next => cases hstep
  | arena | group =>
    simp only [step] at hstep
    split at hstep
    next => cases hstep
    next =>
      obtain rfl := Option.some.inj hstep
      exact ⟨h.setting, h.unset, h.won, h.setPtr, h.setState, h.set, h.winner, h.exchange, h.pending⟩

theorem failed (h : Reachable s) : s.Failed := by
  refine h.invariant ?_ fun _ _ _ hs _ hstep => failed_step hs hstep
  refine ⟨rfl, fun _ => ⟨rfl, rfl⟩, fun hc => absurd rfl hc, ?_, ?_, fun _ => rfl, ?_, ?_,
    fun hc => absurd rfl hc⟩
  all_goals simp

end UnifyPrototype.WaitingTask
