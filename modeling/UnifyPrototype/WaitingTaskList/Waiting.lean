import UnifyPrototype.WaitingTaskList.Steps

/-!
# What `m_waiting` says

As long as `m_waiting` is set, nothing is released. When it is cleared, `m_exceptionPtr` is what
`doneWaiting` was given, and a list that is not empty has a thread that is going to announce it.
-/

namespace UnifyPrototype.WaitingTaskList

open UnifyPrototype.Utils

variable {E : Type} {s s' s₁ : State E} {a i : ℕ} {pt : Point E} {p : Option (Point E)}

/-! ## Before and after `m_waiting` is cleared -/

/-- One for a thread that has found `m_waiting` cleared, or has cleared it. -/
def announcing : Option (Point E) → ℕ
  | some (.late _) | some (.lateRelease _) | some .exchangeNull | some (.readNext _)
  | some (.fail _ _ _) | some (.free _ _ _) | some (.release _ _) => 1
  | _ => 0

/-- One for a thread in `doneWaiting` that has not cleared `m_waiting` yet. -/
def clearing : Option (Point E) → ℕ
  | some (.setException _) | some .clearWaiting => 1
  | _ => 0

/-- The reference that the thread is going to release, having called `dependentTaskFailed`. -/
def Point.releases : Point E → Option Added
  | .lateRelease t | .free t _ _ | .release t _ => some t
  | _ => none

/-- Who releases a task is announcing. -/
lemma announcing_of_releases {t : Added} (h : pt.releases = some t) :
    announcing (some pt) = 1 := by
  cases pt <;> first | rfl | cases h

/-- What `m_waiting` says about the epoch. -/
structure State.Waited (s : State E) : Prop where
  before : s.waiting = true → s.released = [] ∧ tally announcing s.threads = 0
  clearing : tally clearing s.threads = if s.done ≠ none ∧ s.waiting = true then 1 else 0
  set : ∀ (i : ℕ) (e : Option E), s.threads[i]? = some (some (.setException e)) → s.done = some e
  clear : ∀ i : ℕ, s.threads[i]? = some (some .clearWaiting) → s.done = some s.exceptionPtr
  after : s.waiting = false → s.done = some s.exceptionPtr
  released : ∀ e, s.exceptionPtr = some e → ∀ t ∈ s.released, (t, e) ∈ s.failed
  releases : ∀ e, s.exceptionPtr = some e → ∀ (i : ℕ) (pt : Point E) (t : Added),
    s.threads[i]? = some (some pt) → pt.releases = some t → (t, e) ∈ s.failed

/-- A step of a thread that is not between the writes of `doneWaiting`. -/
lemma waited_move (h : s.Waited) {q : Option (Point E)} (hi : s.threads[i]? = some q)
    (hthreads : s'.threads = s.threads.set i p) (hq : clearing q = 0) (hp : clearing p = 0)
    (hsame : (s'.exceptionPtr, s'.waiting, s'.done) = (s.exceptionPtr, s.waiting, s.done))
    (hbefore : s.waiting = true → announcing q = 0 → announcing p = 0 ∧ s'.released = s.released)
    (hfailed : ∀ x ∈ s.failed, x ∈ s'.failed)
    (hreleased : ∀ e, s.exceptionPtr = some e → ∀ t ∈ s'.released, t ∈ s.released ∨ (t, e) ∈ s'.failed)
    (hreleases : ∀ e, s.exceptionPtr = some e → ∀ pt t, p = some pt → pt.releases = some t →
      (t, e) ∈ s'.failed) : s'.Waited := by
  obtain ⟨hexception, hwaiting, hdone⟩ := by simpa only [Prod.mk.injEq] using hsame
  have hclearing := tally_set WaitingTaskList.clearing p hi
  have hannouncing := tally_set announcing p hi
  refine ⟨fun hw => ?_, ?_, fun j e hj => ?_, fun j hj => ?_, fun hw => ?_, fun e he t ht => ?_,
    fun e he j pt t hj hpt => ?_⟩
  · rw [hwaiting] at hw
    obtain ⟨hnone, hquiet⟩ := h.before hw
    have hle := le_tally announcing hi
    -- while the list waits nobody announces, and this thread does not begin to
    obtain ⟨hzero, hsame'⟩ := hbefore hw (by omega)
    rw [hsame', hthreads]
    exact ⟨hnone, by omega⟩
  · rw [hthreads, hdone, hwaiting, ← h.clearing]
    omega
  · rw [hthreads] at hj
    rcases getElem?_goto hj with ⟨-, rfl⟩ | ⟨-, hold⟩
    · cases hp
    · rw [hdone]
      exact h.set j e hold
  · rw [hthreads] at hj
    rcases getElem?_goto hj with ⟨-, rfl⟩ | ⟨-, hold⟩
    · cases hp
    · rw [hdone, hexception]
      exact h.clear j hold
  · rw [hdone, hexception]
    exact h.after (hwaiting ▸ hw)
  · rw [hexception] at he
    rcases hreleased e he t ht with hold | hnew
    · exact hfailed _ (h.released e he t hold)
    · exact hnew
  · rw [hexception] at he
    rw [hthreads] at hj
    rcases getElem?_goto hj with ⟨-, hnow⟩ | ⟨-, hold⟩
    · exact hreleases e he pt t hnow hpt
    · exact hfailed _ (h.releases e he j pt t hold hpt)

lemma mem_dependentTaskFailed {e : E} (he : s.exceptionPtr = some e) (t : Added) :
    (t, e) ∈ (s.dependentTaskFailed t).failed := by
  simp [State.dependentTaskFailed, he]

lemma failed_dependentTaskFailed (s : State E) (t : Added) :
    ∀ x ∈ s.failed, x ∈ (s.dependentTaskFailed t).failed := by
  intro x hx
  unfold State.dependentTaskFailed
  split
  · exact List.mem_append_left _ hx
  · exact hx

/-- A step that is about the nodes. -/
lemma waited_node (h : s.Waited) {q : Option (Point E)} (hi : s.threads[i]? = some q)
    (hthreads : s'.threads = s.threads.set i p) (hq : clearing q = 0) (hp : clearing p = 0)
    (hsame : (s'.exceptionPtr, s'.waiting, s'.done) = (s.exceptionPtr, s.waiting, s.done))
    (hbefore : s.waiting = true → announcing q = 0 → announcing p = 0)
    (hlog : (s'.failed, s'.released) = (s.failed, s.released))
    (hreleases : p.bind Point.releases = none ∨ p.bind Point.releases = q.bind Point.releases) :
    s'.Waited := by
  obtain ⟨hfailed, hreleased⟩ := by simpa only [Prod.mk.injEq] using hlog
  refine waited_move h hi hthreads hq hp hsame (fun hw hz => ⟨hbefore hw hz, hreleased⟩)
    (fun x hx => hfailed ▸ hx) (fun e _ t ht => .inl (hreleased ▸ ht)) fun e he pt t hpt ht => ?_
  subst hpt
  rcases hreleases with hnone | hold
  · cases ht.symm.trans hnone
  · obtain ⟨pt', rfl, ht'⟩ := Option.bind_eq_some_iff.mp (hold.symm.trans ht)
    rw [hfailed]
    exact h.releases e he i pt' t hi ht'

/-- The release of a reference. -/
lemma waited_release (h : s.Waited) (hi : s.threads[i]? = some (some pt)) {t : Added}
    (ht : pt.releases = some t) (hpt : clearing (some pt) = 0) (hann : announcing (some pt) = 1)
    (hp : clearing p = 0) (hnone : p.bind Point.releases = none) :
    (State.goto i (s.release t, p)).Waited := by
  refine waited_move h hi rfl hpt hp rfl (fun _ hz => ?_) (fun x hx => hx)
    (fun e he t' ht' => ?_) fun e he pt' t' hpt' ht' => ?_
  · rw [hann] at hz
    cases hz
  · rcases List.mem_append.mp ht' with hold | hnew
    · exact .inl hold
    · obtain rfl := List.mem_singleton.mp hnew
      exact .inr (h.releases e he i pt t' hi ht)
  · subst hpt'
    cases ht'.symm.trans hnone

lemma waited_advance (h : s.Waited) (hi : s.threads[i]? = some (some pt))
    (hadvances : Advances s a pt s₁ p) : (State.goto i (s₁, p)).Waited := by
  cases hadvances with
  | wait | exchangeHead | stillWaiting | pause =>
    exact waited_node h hi rfl rfl rfl rfl (fun _ hz => hz) rfl (.inl rfl)
  | tooLate o t hwaiting | notWaiting hwaiting =>
    refine waited_node h hi rfl rfl rfl rfl (fun hw => ?_) rfl (.inl rfl)
    rw [hwaiting] at hw
    cases hw
  | readNext =>
    exact waited_node h hi rfl rfl rfl rfl (fun _ hz => hz) rfl (.inl rfl)
  | exchangeNull =>
    refine waited_node h hi rfl rfl ?_ rfl (fun _ hz => by cases hz) rfl ?_
    · cases s.head <;> rfl
    · cases s.head <;> exact .inl rfl
  | late t | fail t n next =>
    obtain ⟨failed, heq⟩ := dependentTaskFailed_eq s t
    have hmore := failed_dependentTaskFailed s t
    have hnow := fun e he => mem_dependentTaskFailed (s := s) (e := e) he t
    rw [heq] at hmore hnow ⊢
    refine waited_move h hi rfl rfl rfl rfl (fun _ hz => by cases hz) hmore
      (fun e _ t' ht' => .inl ht') fun e he pt t' hpt ht' => ?_
    obtain rfl := Option.some.inj hpt
    obtain rfl := Option.some.inj ht'
    exact hnow e he
  | lateRelease t => exact waited_release h hi rfl rfl rfl rfl rfl
  | release t next =>
    refine waited_release h hi rfl rfl rfl ?_ ?_
    · cases next <;> rfl
    · cases next <;> rfl
  | createNode o t n hcreate =>
    obtain ⟨nodeCache, heap, rfl⟩ := createNode_eq hcreate
    exact waited_node h hi rfl rfl rfl rfl (fun _ hz => hz) rfl (.inl rfl)
  | link o t n m =>
    obtain ⟨nodeCache, heap, heq⟩ := setNextNode_eq s (some m) n
    rw [heq]
    exact waited_node h hi rfl rfl rfl rfl (fun _ hz => hz) rfl (.inl rfl)
  | linkFirst t n | linkFirstTask t n | linkAgain t n =>
    obtain ⟨nodeCache, heap, heq⟩ := setNextNode_eq s none n
    rw [heq]
    exact waited_node h hi rfl rfl rfl rfl (fun _ hz => hz) rfl (.inl rfl)
  | free t n next node =>
    obtain ⟨heap, heq⟩ := free_eq s n node.fromCache
    rw [heq]
    exact waited_node h hi rfl rfl rfl rfl (fun _ hz => by cases hz) rfl (.inr rfl)
  | setException e =>
    have hclearing := h.clearing
    have hle := le_tally clearing hi
    have hset := tally_set clearing (some .clearWaiting) hi
    have hset' := tally_set announcing (some .clearWaiting) hi
    simp only [clearing, announcing, Nat.add_zero] at hle hset hset'
    have hwaiting : s.waiting = true := by
      by_contra hno
      rw [if_neg fun hc => hno hc.2] at hclearing
      omega
    rw [if_pos ⟨by simp [h.set i e hi], hwaiting⟩] at hclearing
    obtain ⟨hreleased, hquiet⟩ := h.before hwaiting
    -- `m_exceptionPtr` is written before anything is released
    refine ⟨fun _ => ⟨hreleased, hset'.trans hquiet⟩, ?_, fun j e' hj => ?_, fun j hj => ?_,
      fun hw => ?_, fun e' _ t ht => ?_, fun e' _ j q t hj hq => ?_⟩
    · show tally clearing (s.threads.set i (some .clearWaiting)) = _
      rw [if_pos ⟨by simp [State.goto, h.set i e hi], hwaiting⟩]
      omega
    · rcases getElem?_goto hj with ⟨-, hq⟩ | ⟨hne, hold⟩
      · cases hq
      · have hboth := add_le_tally clearing hne hold hi
        simp only [clearing] at hboth
        omega
    · exact h.set i e hi
    · rw [show (State.goto i ({ s with exceptionPtr := e }, some Point.clearWaiting)).waiting
        = s.waiting from rfl, hwaiting] at hw
      cases hw
    · rw [show (State.goto i ({ s with exceptionPtr := e }, some Point.clearWaiting)).released
        = s.released from rfl, hreleased] at ht
      cases ht
    · rcases getElem?_goto hj with ⟨-, hnow⟩ | ⟨-, hold⟩
      · obtain rfl := Option.some.inj hnow
        cases hq
      · have hle' : announcing (some q) ≤ tally announcing s.threads := le_tally announcing hold
        rw [announcing_of_releases hq] at hle'
        omega
  | clearWaiting =>
    have hdone := h.clear i hi
    have hle := le_tally clearing hi
    have hclearing := h.clearing
    have hset := tally_set clearing (some .exchangeNull) hi
    simp only [clearing, Nat.add_zero] at hle hset
    have hone : tally clearing s.threads ≤ 1 := by
      rw [hclearing]
      split <;> omega
    refine ⟨nofun, ?_, fun j e hj => ?_, fun j hj => ?_, fun _ => hdone, h.released,
      fun e he j q t hj hq => ?_⟩
    · show tally clearing (s.threads.set i (some .exchangeNull)) = _
      rw [if_neg fun hc => by cases hc.2]
      omega
    · rcases getElem?_goto hj with ⟨-, hq⟩ | ⟨-, hold⟩
      · cases hq
      · exact h.set j e hold
    · exact hdone
    · rcases getElem?_goto hj with ⟨-, hnow⟩ | ⟨-, hold⟩
      · obtain rfl := Option.some.inj hnow
        cases hq
      · exact h.releases e he j q t hold hq

/-- Each step keeps what `m_waiting` says about the epoch. -/
lemma waited_step {b : Label E} (h : s.Waited) (hstep : step s b = some s') : s'.Waited := by
  cases steps hstep with
  | fork =>
    refine ⟨?_, ?_, fun i e hi => h.set i e (getElem?_fork hi),
      fun i hi => h.clear i (getElem?_fork hi), h.after, h.released,
      fun e he i pt t hi => h.releases e he i pt t (getElem?_fork hi)⟩
    · rw [tally_append]
      exact h.before
    · rw [tally_append]
      exact h.clearing
  | add i o t hi =>
    exact waited_node h hi rfl rfl rfl rfl (fun _ hz => hz) rfl (.inl rfl)
  | doneWaiting i e hi hdone =>
    -- `doneWaiting` is called once, so the flag is still set
    have hwaiting : s.waiting = true := by
      by_contra hno
      have hafter := h.after (by simpa using hno)
      rw [hdone] at hafter
      cases hafter
    -- and no other thread is clearing it
    have hclearing := h.clearing
    rw [if_neg fun hc => hc.1 hdone] at hclearing
    have hset := tally_set clearing (some (.setException e)) hi
    have hset' := tally_set announcing (some (.setException e)) hi
    simp only [clearing, announcing, Nat.add_zero] at hset hset'
    refine ⟨fun hw => ?_, ?_, fun j e' hj => ?_, fun j hj => ?_, fun hw => ?_, h.released,
      fun e' he j q t hj hq => ?_⟩
    · obtain ⟨hnone, hquiet⟩ := h.before hw
      exact ⟨hnone, hset'.trans hquiet⟩
    · show tally clearing (s.threads.set i (some (.setException e))) = _
      rw [if_pos ⟨by simp [State.goto], hwaiting⟩]
      omega
    · rcases getElem?_goto hj with ⟨-, hnow⟩ | ⟨-, hold⟩
      · obtain rfl := by simpa using hnow
        rfl
      · -- no other thread clears the flag
        have hle := le_tally clearing hold
        simp only [clearing] at hle
        omega
    · rcases getElem?_goto hj with ⟨-, hnow⟩ | ⟨-, hold⟩
      · cases hnow
      · have hle := le_tally clearing hold
        simp only [clearing] at hle
        omega
    · rw [show (State.goto i ({ s with done := some e }, some (Point.setException e))).waiting
        = s.waiting from rfl, hwaiting] at hw
      cases hw
    · rcases getElem?_goto hj with ⟨-, hnow⟩ | ⟨-, hold⟩
      · obtain rfl := Option.some.inj hnow
        cases hq
      · exact h.releases e' he j q t hold hq
  | reset hidle =>
    have hnone : ∀ (i : ℕ) (q : Point E), s.threads[i]? ≠ some (some q) := fun i q hi => by
      cases hidle _ (List.mem_of_getElem? hi)
    have hzero : ∀ w : Option (Point E) → ℕ, w none = 0 → tally w s.threads = 0 := fun w hw =>
      tally_eq_zero.mpr fun q hq => by rw [hidle q hq, hw]
    exact ⟨fun _ => ⟨rfl, hzero announcing rfl⟩, hzero clearing rfl,
      fun i e hi => absurd hi (hnone i _), fun i hi => absurd hi (hnone i _), nofun, nofun, nofun⟩
  | retain | letGo =>
    exact ⟨h.before, h.clearing, h.set, h.clear, h.after, h.released, h.releases⟩
  | advance i a hi hadvances => exact waited_advance h hi hadvances

lemma waited_init (c : ℕ) : (init c : State E).Waited := by
  refine ⟨fun _ => ⟨rfl, rfl⟩, rfl, ?_, ?_, nofun, nofun, nofun⟩
  all_goals simp [init]

/-! ## The list is announced -/

/-- One for a thread that tests `m_waiting` once more, or takes the list. -/
def hopeful : Option (Point E) → ℕ
  | some (.setNext _ _ _ none) | some (.setNextAgain _ _) | some .recheckWaiting
  | some .exchangeNull => 1
  | _ => 0

/-- Without `m_waiting`, somebody is going to take the list unless it is empty. -/
def State.Awaited (s : State E) : Prop :=
  s.waiting = false → s.head ≠ none → 0 < tally hopeful s.threads

lemma awaited_move (h : s.Awaited) {q : Option (Point E)} (hi : s.threads[i]? = some q)
    (hthreads : s'.threads = s.threads.set i p) (hwaiting : s'.waiting = s.waiting)
    (hhead : s'.head = s.head) (hle : hopeful q ≤ hopeful p) : s'.Awaited := by
  intro hw hne
  have hset := tally_set hopeful p hi
  have hpos := h (hwaiting ▸ hw) (hhead ▸ hne)
  rw [hthreads]
  omega

lemma awaited_advance (h : s.Awaited) (hi : s.threads[i]? = some (some pt))
    (hadvances : Advances s a pt s₁ p) : (State.goto i (s₁, p)).Awaited := by
  have hset := tally_set hopeful p hi
  cases hadvances with
  | wait | tooLate | lateRelease | setException | pause | readNext | notWaiting =>
    exact awaited_move h hi rfl rfl rfl le_rfl
  | release t next => exact awaited_move h hi rfl rfl rfl (Nat.zero_le _)
  | late t | fail t n next =>
    obtain ⟨failed, heq⟩ := dependentTaskFailed_eq s t
    rw [heq]
    exact awaited_move h hi rfl rfl rfl le_rfl
  | createNode o t n hcreate =>
    obtain ⟨nodeCache, heap, rfl⟩ := createNode_eq hcreate
    exact awaited_move h hi rfl rfl rfl le_rfl
  | link o t n m =>
    obtain ⟨nodeCache, heap, heq⟩ := setNextNode_eq s (some m) n
    rw [heq]
    exact awaited_move h hi rfl rfl rfl le_rfl
  | linkFirst t n | linkFirstTask t n | linkAgain t n =>
    obtain ⟨nodeCache, heap, heq⟩ := setNextNode_eq s none n
    rw [heq]
    exact awaited_move h hi rfl rfl rfl le_rfl
  | free t n next node =>
    obtain ⟨heap, heq⟩ := free_eq s n node.fromCache
    rw [heq]
    exact awaited_move h hi rfl rfl rfl le_rfl
  | exchangeHead o t n =>
    intro hw _
    show 0 < tally hopeful (s.threads.set i (some (.setNext o t n s.head)))
    cases hhead : s.head with
    | none =>
      -- the first node of the list: its call tests `m_waiting` again
      rw [hhead] at hset
      simp only [hopeful] at hset
      omega
    | some m =>
      have hpos := h hw (by simp [hhead])
      rw [hhead] at hset
      simp only [hopeful] at hset
      omega
  | stillWaiting hwaiting =>
    intro hw _
    cases hwaiting.symm.trans hw
  | clearWaiting =>
    intro _ _
    show 0 < tally hopeful (s.threads.set i (some .exchangeNull))
    simp only [hopeful] at hset
    omega
  | exchangeNull => exact fun _ hne => absurd rfl hne

/-- Each step leaves somebody who is going to take the list, if it is there to be taken. -/
lemma awaited_step {b : Label E} (h : s.Awaited) (hstep : step s b = some s') : s'.Awaited := by
  cases steps hstep with
  | fork =>
    intro hw hne
    rw [tally_append]
    exact h hw hne
  | add i o t hi => exact awaited_move h hi rfl rfl rfl le_rfl
  | doneWaiting i e hi => exact awaited_move h hi rfl rfl rfl le_rfl
  | reset => exact nofun
  | retain | letGo => exact h
  | advance i a hi hadvances => exact awaited_advance h hi hadvances

lemma awaited_init (c : ℕ) : (init c : State E).Awaited :=
  nofun

end UnifyPrototype.WaitingTaskList
