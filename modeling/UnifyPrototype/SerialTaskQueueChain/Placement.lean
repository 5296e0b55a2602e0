import Mathlib.Data.List.Infix
import UnifyPrototype.SerialTaskQueue.Tasks
import UnifyPrototype.SerialTaskQueueChain.Steps

/-!
# Which functor is at which queue

The functor of a hop is pushed onto the queue it will pause, the action onto the last queue. A
thread that executes one of them has a final part of its code before it.
-/

namespace UnifyPrototype.SerialTaskQueueChain

open UnifyPrototype.Utils
open SerialTaskQueue (QueuedTask Queue Point Thread Result Operation operation forall_tasks_step)

variable {Q : Type} {m_queues : List Q} {chainOf : ℕ → List Q} {q : Q}

/-! ## The code of a functor -/

/-- The functor belongs to the queue `q`. -/
def Placed (m_queues : List Q) (q : Q) : Closure → Prop
  | .ordinary => True
  | .passDownChain k _ _ => 1 ≤ k ∧ k < m_queues.length ∧ m_queues[k - 1]? = some q
  | .actionToRun _ => m_queues.getLast? = some q

/-- In the middle of a chain: pause the queue behind and push onto the one ahead. -/
lemma passDownChain_eq {k : ℕ} (hk : 1 ≤ k) (hlt : k < m_queues.length) (g a : ℕ) :
    passDownChain m_queues k g a
      = [.pause m_queues[k - 1], .push m_queues[k] g
          (if k + 1 = m_queues.length then .actionToRun a else .passDownChain (k + 1) g a)] := by
  unfold passDownChain
  rw [List.getElem?_eq_getElem (show k - 1 < m_queues.length by omega),
    List.getElem?_eq_getElem hlt]
  dsimp only
  split <;> rfl

/-- The functor that a hop pushes belongs to the queue it is pushed onto. -/
lemma placed_next {k : ℕ} (hlt : k < m_queues.length) (g a : ℕ) :
    Placed m_queues m_queues[k]
      (if k + 1 = m_queues.length then .actionToRun a else .passDownChain (k + 1) g a) := by
  split
  next hlast =>
    show m_queues.getLast? = some m_queues[k]
    rw [List.getLast?_eq_getElem?, ← hlast, Nat.add_sub_cancel]
    exact List.getElem?_eq_getElem hlt
  next hlast =>
    refine ⟨by omega, by omega, ?_⟩
    rw [Nat.add_sub_cancel]
    exact List.getElem?_eq_getElem hlt

/-- A push puts its closure where it belongs. -/
lemma placed_of_push_mem {g a g' : ℕ} {c : Closure}
    (h : Op.push q g' c ∈ push m_queues g a) : Placed m_queues q c := by
  rcases m_queues with _ | ⟨q₀, _ | ⟨q₁, qs⟩⟩
  · simp [push] at h
  · obtain ⟨rfl, -, rfl⟩ : q = q₀ ∧ g' = g ∧ c = .actionToRun a := by simpa [push] using h
    rfl
  · obtain ⟨rfl, -, rfl⟩ : q = q₀ ∧ g' = g ∧ c = .passDownChain 1 g a := by simpa [push] using h
    exact ⟨le_rfl, by simp, rfl⟩

/-- A push pauses nothing. -/
lemma not_pause_mem_push {g a : ℕ} : Op.pause q ∉ push m_queues g a := by
  rcases m_queues with _ | ⟨q₀, _ | ⟨q₁, qs⟩⟩ <;> simp [push]

/-- The sentry resumes all queues but the last one. -/
lemma mem_sentryAction {a : ℕ} {op : Op Q} :
    op ∈ sentryAction m_queues a ↔ (∃ q ∈ m_queues.dropLast, op = .resume a q) ∨ op = .decrement a := by
  rw [sentryAction, List.drop_one, List.tail_reverse, List.mem_append, List.mem_singleton,
    List.mem_map]
  simp only [List.mem_reverse, eq_comm]

lemma not_iAction_mem_sentryAction {a : ℕ} : Op.iAction ∉ sentryAction m_queues a := by
  simp [mem_sentryAction]

/-- What the code of a functor pushes belongs to the queue it is pushed onto. -/
lemma placed_of_code_mem {c c' : Closure} {q' : Q} {g' : ℕ} (hc : Placed m_queues q c)
    (h : Op.push q' g' c' ∈ c.code m_queues) : Placed m_queues q' c' := by
  cases c with
  | ordinary => simp [Closure.code] at h
  | passDownChain k g a =>
    obtain ⟨hk, hlt, -⟩ := hc
    rw [Closure.code, passDownChain_eq hk hlt] at h
    obtain ⟨rfl, -, rfl⟩ : q' = m_queues[k] ∧ g' = g ∧ c' = _ := by simpa using h
    exact placed_next hlt g a
  | actionToRun a => simp [Closure.code, actionToRun, mem_sentryAction] at h

/-- The code of a functor pauses no queue but that of the hop it is. -/
lemma eq_of_pause_mem_code {c : Closure} {q' : Q} (hc : Placed m_queues q c)
    (h : Op.pause q' ∈ c.code m_queues) : q' = q ∧ ∃ k g a, c = .passDownChain k g a := by
  cases c with
  | ordinary => simp [Closure.code] at h
  | passDownChain k g a =>
    obtain ⟨hk, hlt, hq⟩ := hc
    rw [Closure.code, passDownChain_eq hk hlt] at h
    obtain rfl : q' = m_queues[k - 1] := by simpa using h
    rw [List.getElem?_eq_getElem (by omega)] at hq
    exact ⟨Option.some.inj hq, k, g, a, rfl⟩
  | actionToRun a => simp [Closure.code, actionToRun, mem_sentryAction] at h

/-- A functor of the chain belongs to a queue of the chain. -/
lemma mem_of_placed {c : Closure} (hc : Placed m_queues q c) : c = .ordinary ∨ q ∈ m_queues := by
  cases c with
  | ordinary => exact .inl rfl
  | passDownChain k g a => exact .inr (List.mem_of_getElem? hc.2.2)
  | actionToRun a => exact .inr (List.mem_of_getLast? hc)

/-! ## Well-formed threads -/

/-- Inside a member function that was called from user code or from the chain. -/
def inCall : Point Closure → Bool
  | .push _ | .pause | .resume => true
  | .pick c _ | .spawn c _ => c = .member
  | _ => false

/-- The action that a functor is about. -/
def Closure.action? : Closure → Option ℕ
  | .ordinary => none
  | .passDownChain _ _ a | .actionToRun a => some a

/-- A closure goes along the chain of its action. -/
lemma Closure.queues_of_action {c : Closure} {a : ℕ} (h : c.action? = some a) :
    c.queues chainOf = chainOf a := by
  cases c with
  | ordinary => cases h
  | passDownChain k g b | actionToRun b => rw [Closure.queues, Option.some.inj h]

/-- A call of `push` hands over its own action. -/
lemma action_of_mem_push {g a g' : ℕ} {c : Closure} (h : Op.push q g' c ∈ push m_queues g a) :
    c.action? = some a := by
  rcases m_queues with _ | ⟨q₀, _ | ⟨q₁, qs⟩⟩
  · simp [push] at h
  · obtain ⟨-, -, rfl⟩ : q = q₀ ∧ g' = g ∧ c = .actionToRun a := by simpa [push] using h
    rfl
  · obtain ⟨-, -, rfl⟩ : q = q₀ ∧ g' = g ∧ c = .passDownChain 1 g a := by simpa [push] using h
    rfl

/-- A call of `push` hands its action to the first queue. -/
lemma head_of_mem_push {g a g' : ℕ} {c : Closure} (h : Op.push q g' c ∈ push m_queues g a) :
    m_queues.head? = some q := by
  rcases m_queues with _ | ⟨q₀, _ | ⟨q₁, qs⟩⟩
  · simp [push] at h
  · obtain ⟨rfl, -⟩ : q = q₀ ∧ g' = g ∧ c = .actionToRun a := by simpa [push] using h
    rfl
  · obtain ⟨rfl, -⟩ : q = q₀ ∧ g' = g ∧ c = .passDownChain 1 g a := by simpa [push] using h
    rfl

/-- What is left of the code of the functor `c`. The user's functor may push more in between. -/
def CodeLeft (m_queues : List Q) (call : Option (Q × Point Closure)) (sc : List (Op Q)) :
    Closure → Prop
  | .ordinary => True
  | .passDownChain k g a =>
    sc <:+ passDownChain m_queues k g a ∧ (∀ q, call = some (q, .pause) → sc.length = 1) ∧
      ∀ q t, call = some (q, .push t) → t.action.action? = some a
  | .actionToRun a => actionToRun m_queues a <:+ sc ∨ .iAction ∉ sc

/-- A thread and its script fit together. -/
structure Member.Good (m_queues : List Q) (m : Member Q) : Prop where
  placed : ∀ q pt, m.1.job = some (q, pt) ∨ m.1.call = some (q, pt) →
    ∀ t ∈ pt.tasks, Placed m_queues q t.action
  toPush : ∀ q g c, Op.push q g c ∈ m.2 → Placed m_queues q c
  idle : m.1.inUserCode = false → m.1.call = none ∧ m.2 = []
  call : ∀ q pt, m.1.call = some (q, pt) → inCall pt = true
  job : ∀ q, m.1.job ≠ some (q, .pause)
  pausing : ∀ q, Op.pause q ∈ m.2 ∨ m.1.call = some (q, .pause) →
    ∃ g t k g' a, m.1.job = some (q, .execute g t) ∧ t.action = .passDownChain k g' a
  code : ∀ q g t, m.1.job = some (q, .execute g t) → CodeLeft m_queues m.1.call m.2 t.action

/-- All members fit, and every queued task is in the queue that its functor belongs to. -/
structure State.Good (m_queues : List Q) (s : State Q) : Prop where
  members : ∀ m ∈ s.members, m.Good m_queues
  tasks : ∀ q, ∀ t ∈ (s.base.queue q).tasks, Placed m_queues q t.action

/-- The member is going to push the functor `c` onto the queue `q`. -/
def Member.Hands (m : Member Q) (q : Q) (c : Closure) : Prop :=
  (∃ g, Op.push q g c ∈ m.2) ∨ ∃ t, m.1.call = some (q, .push t) ∧ t.action = c

/-- A thread and its script fit together, where several chains share the queues. -/
structure Member.Fits (chainOf : ℕ → List Q) (m : Member Q) : Prop where
  placed : ∀ q pt, m.1.job = some (q, pt) ∨ m.1.call = some (q, pt) →
    ∀ t ∈ pt.tasks, Placed (t.action.queues chainOf) q t.action
  toPush : ∀ q g c, Op.push q g c ∈ m.2 → Placed (c.queues chainOf) q c
  idle : m.1.inUserCode = false → m.1.call = none ∧ m.2 = []
  call : ∀ q pt, m.1.call = some (q, pt) → inCall pt = true
  job : ∀ q, m.1.job ≠ some (q, .pause)
  pausing : ∀ q, Op.pause q ∈ m.2 ∨ m.1.call = some (q, .pause) →
    ∃ g t k g' a, m.1.job = some (q, .execute g t) ∧ t.action = .passDownChain k g' a
  code : ∀ q g t, m.1.job = some (q, .execute g t) →
    CodeLeft (t.action.queues chainOf) m.1.call m.2 t.action
  increment : Op.increment ∉ m.2.tail
  hands : ∀ q c a, m.Hands q c → c.action? = some a → (chainOf a).head? = some q ∨
    ∃ q' g t k g', m.1.job = some (q', .execute g t) ∧ t.action = .passDownChain k g' a ∧
      (chainOf a)[k]? = some q

/-- All members fit, and every task is in the queue that its functor belongs to. -/
structure State.Fits (chainOf : ℕ → List Q) (s : State Q) : Prop where
  members : ∀ m ∈ s.members, m.Fits chainOf
  tasks : ∀ q, ∀ t ∈ (s.base.queue q).tasks, Placed (t.action.queues chainOf) q t.action
  pushed : ∀ q, ∀ t ∈ (s.base.queue q).pushed, Placed (t.action.queues chainOf) q t.action

lemma placed_queues {c : Closure} :
    Placed (c.queues fun _ => m_queues) q c ↔ Placed m_queues q c := by
  cases c <;> rfl

lemma codeLeft_queues {call : Option (Q × Point Closure)} {sc : List (Op Q)} {c : Closure} :
    CodeLeft (c.queues fun _ => m_queues) call sc c ↔ CodeLeft m_queues call sc c := by
  cases c <;> rfl

lemma Member.Fits.good {m : Member Q} (h : m.Fits fun _ => m_queues) : m.Good m_queues where
  placed q pt hpt t ht := placed_queues.mp (h.placed q pt hpt t ht)
  toPush q g c hc := placed_queues.mp (h.toPush q g c hc)
  idle := h.idle
  call := h.call
  job := h.job
  pausing := h.pausing
  code q g t hjob := codeLeft_queues.mp (h.code q g t hjob)

/-- In user code a thread has an action or nothing to do. -/
lemma script_of_inUserCode {th : Thread Q Closure} {sc : List (Op Q)}
    (h : inUserCode th sc = true) : sc = [] ∨ ∃ rest, sc = .iAction :: rest := by
  unfold inUserCode at h
  rw [Bool.and_eq_true] at h
  split at h
  next => exact .inl rfl
  next rest => exact .inr ⟨rest, rfl⟩
  next => cases h.2

/-- User code is running in a thread without code, or is the user's functor of the code. -/
lemma inUserCode_cases {th : Thread Q Closure} {sc : List (Op Q)} (h : inUserCode th sc = true) :
    th.call = none ∧ th.inUserCode = true ∧
      (th.job = none ∨ ∃ rest, sc = .iAction :: rest) := by
  unfold inUserCode at h
  rw [Bool.and_eq_true, Option.isNone_iff_eq_none] at h
  obtain ⟨hcall, h⟩ := h
  refine ⟨hcall, ?_⟩
  split at h
  · have hjob := Option.isNone_iff_eq_none.mp h
    exact ⟨by simp [Thread.inUserCode, hjob], .inl hjob⟩
  next rest => exact ⟨h, .inr ⟨rest, rfl⟩⟩
  · cases h

/-- Code of a hop does not contain user code. -/
lemma not_iAction_suffix {k g a : ℕ} {rest : List (Op Q)} :
    ¬ (.iAction :: rest) <:+ passDownChain m_queues k g a := by
  intro h
  have hmem : Op.iAction ∈ passDownChain m_queues k g a := h.subset (by simp)
  unfold passDownChain at hmem
  split at hmem
  · split at hmem <;> simp at hmem
  · cases hmem

/-- After its pause a hop has one operation left. -/
lemma length_of_pause_suffix {k g a : ℕ} {rest : List (Op Q)}
    (h : (.pause q :: rest) <:+ passDownChain m_queues k g a) : rest.length = 1 := by
  obtain ⟨front, h⟩ := h
  unfold passDownChain at h
  split at h
  · split at h <;> rcases front with _ | ⟨op, _ | ⟨op', front⟩⟩ <;> simp at h <;> simp [h]
  · simp at h

/-- A hop passes its own action on. -/
lemma action_of_push_mem {k g a g' : ℕ} {c : Closure}
    (h : Op.push q g' c ∈ passDownChain m_queues k g a) : c.action? = some a := by
  unfold passDownChain at h
  split at h
  · split at h
    · obtain ⟨-, -, rfl⟩ : q = _ ∧ g' = g ∧ c = .actionToRun a := by simpa using h
      rfl
    · obtain ⟨-, -, rfl⟩ : q = _ ∧ g' = g ∧ c = .passDownChain (k + 1) g a := by simpa using h
      rfl
  · cases h

/-- The code of a functor pushes for the same action. -/
lemma placed_queues_of_code_mem {c c' : Closure} {q' : Q} {g' : ℕ}
    (hc : Placed (c.queues chainOf) q c) (h : Op.push q' g' c' ∈ c.code (c.queues chainOf)) :
    Placed (c'.queues chainOf) q' c' := by
  have hplaced := placed_of_code_mem hc h
  cases c with
  | ordinary => simp [Closure.code] at h
  | passDownChain k g a =>
    rw [Closure.queues_of_action (action_of_push_mem h)]
    exact hplaced
  | actionToRun a => simp [Closure.code, actionToRun, mem_sentryAction] at h

/-- Only a hop pushes something: onto the next queue of its chain. -/
lemma hop_of_push_mem_code {c c' : Closure} {q' : Q} {g' : ℕ}
    (h : Op.push q' g' c' ∈ c.code (c.queues chainOf)) :
    ∃ k g a, c = .passDownChain k g a ∧ c'.action? = some a ∧ (chainOf a)[k]? = some q' := by
  cases c with
  | ordinary => simp [Closure.code] at h
  | passDownChain k g a =>
    refine ⟨k, g, a, rfl, action_of_push_mem h, ?_⟩
    change Op.push q' g' c' ∈ passDownChain (chainOf a) k g a at h
    unfold passDownChain at h
    split at h
    next q₀ q₁ _ hnext =>
      rw [hnext]
      split at h
      · obtain ⟨rfl, -⟩ : q' = q₁ ∧ g' = g ∧ c' = .actionToRun a := by simpa using h
        rfl
      · obtain ⟨rfl, -⟩ : q' = q₁ ∧ g' = g ∧ c' = .passDownChain (k + 1) g a := by simpa using h
        rfl
    next => cases h
  | actionToRun a => simp [Closure.code, actionToRun, mem_sentryAction] at h

/-- No code of a functor has an increment. -/
lemma not_increment_mem_code {c : Closure} : Op.increment ∉ c.code m_queues := by
  cases c with
  | ordinary => simp [Closure.code]
  | passDownChain k g a =>
    show Op.increment ∉ passDownChain m_queues k g a
    unfold passDownChain
    split
    · split <;> simp
    · simp
  | actionToRun a => simp [Closure.code, actionToRun, mem_sentryAction]

/-- User code inside a functor: what is left of the functor's code starts with the user's. -/
lemma codeLeft_of_user {m : Member Q} (hgood : m.Fits chainOf)
    (huser : inUserCode m.1 m.2 = true) (call' : Option (Q × Point Closure)) (new : List (Op Q))
    {g : ℕ} {t : QueuedTask Closure} (hjob : m.1.job = some (q, .execute g t)) :
    CodeLeft (t.action.queues chainOf) call' (new ++ m.2) t.action := by
  obtain ⟨hcall, -, hnone | ⟨rest, hsc⟩⟩ := inUserCode_cases huser
  · rw [hjob] at hnone
    cases hnone
  · have hleft := hgood.code q g t hjob
    cases hact : t.action with
    | ordinary => trivial
    | passDownChain k g' a =>
      rw [hact, hsc] at hleft
      exact absurd hleft.1 not_iAction_suffix
    | actionToRun a =>
      rw [hact] at hleft
      rcases hleft with hsuffix | hnot
      · exact .inl (hsuffix.trans (List.suffix_append _ _))
      · exact absurd (by simp [hsc]) hnot

/-! ## The steps -/

/-- A thread in user code may push. -/
lemma fits_pushed {id g : ℕ} {th : Thread Q Closure} {sc : List (Op Q)}
    (hfits : Member.Fits chainOf (th, sc)) (huser : inUserCode th sc = true) :
    Member.Fits chainOf (th, push (chainOf id) g id ++ sc) := by
  refine ⟨hfits.placed, fun q g' c h => ?_, fun hidle => ?_, hfits.call, hfits.job,
    fun q h => ?_, fun q g' t hjob => codeLeft_of_user hfits huser _ _ hjob, ?_,
    fun q c a h hact => ?_⟩
  · rcases List.mem_append.mp h with hnew | hold
    · rw [Closure.queues_of_action (action_of_mem_push hnew)]
      exact placed_of_push_mem hnew
    · exact hfits.toPush q g' c hold
  · rw [(inUserCode_cases huser).2.1] at hidle
    cases hidle
  · rcases h with h | h
    · rcases List.mem_append.mp h with hnew | hold
      · exact absurd hnew not_pause_mem_push
      · exact hfits.pausing q (.inl hold)
    · exact hfits.pausing q (.inr h)
  · have hsc : Op.increment ∉ sc := by
      rcases script_of_inUserCode huser with rfl | ⟨rest, rfl⟩
      · simp
      · simpa using hfits.increment
    unfold push
    split <;> simp [hsc]
  · rcases h with ⟨g', hmem⟩ | hcall
    · rcases List.mem_append.mp hmem with hnew | hold
      · obtain rfl := Option.some.inj ((action_of_mem_push hnew).symm.trans hact)
        exact .inl (head_of_mem_push hnew)
      · exact hfits.hands q c a (.inl ⟨g', hold⟩) hact
    · exact hfits.hands q c a (.inr hcall) hact

/-- The chain's code calls the next member function. -/
lemma fits_proceed {id : ℕ} {op : Op Q} {th : Thread Q Closure} {sc : List (Op Q)}
    (hfits : Member.Fits chainOf (th, op :: sc)) (huser : th.inUserCode = true)
    (hop : op ≠ .iAction) :
    Member.Fits chainOf ({ th with call := op.call?.map fun c => (c.1, c.2.entry id) }, sc) := by
  refine ⟨fun q pt h => ?_, fun q g c h => hfits.toPush q g c (by simp [h]), fun hidle => ?_,
    fun q pt h => ?_, hfits.job, fun q h => ?_, fun q g t hjob => ?_,
    fun h => hfits.increment (List.mem_of_mem_tail h), fun q c a h hact => ?_⟩
  · rcases h with h | h
    · exact hfits.placed q pt (.inl h)
    · cases op with
      | push q' g' c =>
        obtain ⟨rfl, rfl⟩ : q' = q ∧ _ = pt := by simpa [Op.call?] using h
        intro t ht
        obtain rfl := List.mem_singleton.mp ht
        -- the functor that is pushed was in the script, where it belonged to this queue
        exact hfits.toPush q' g' c (by simp)
      | pause q' | resume a' q' =>
        obtain ⟨rfl, rfl⟩ : q' = q ∧ _ = pt := by simpa [Op.call?] using h
        simp [SerialTaskQueue.Op.entry, Point.tasks]
      | _ => simp [Op.call?] at h
  · exact Bool.noConfusion (huser.symm.trans hidle)
  · cases op with
    | push q' _ _ | pause q' | resume _ q' =>
      obtain ⟨-, rfl⟩ : q' = q ∧ _ = pt := by simpa [Op.call?] using h
      rfl
    | _ => simp [Op.call?] at h
  · rcases h with h | h
    · exact hfits.pausing q (.inl (by simp [h]))
    · cases op with
      | pause q' =>
        obtain rfl : q' = q := by simpa [Op.call?, SerialTaskQueue.Op.entry] using h
        exact hfits.pausing q' (.inl (by simp))
      | _ => simp [Op.call?, SerialTaskQueue.Op.entry] at h
  · have hleft := hfits.code q g t hjob
    cases hact : t.action with
    | ordinary => trivial
    | passDownChain k g' a =>
      rw [hact] at hleft
      refine ⟨(List.suffix_cons op sc).trans hleft.1, fun q' hcall => ?_, fun q' t' hcall => ?_⟩
      · cases op with
        | pause q₀ => exact length_of_pause_suffix hleft.1
        | _ => simp [Op.call?, SerialTaskQueue.Op.entry] at hcall
      · cases op with
        | push q₀ g₀ c =>
          obtain ⟨-, rfl⟩ : q₀ = q' ∧ _ = t' := by
            simpa [Op.call?, SerialTaskQueue.Op.entry] using hcall
          exact action_of_push_mem (hleft.1.subset List.mem_cons_self)
        | _ => simp [Op.call?, SerialTaskQueue.Op.entry] at hcall
    | actionToRun a =>
      rw [hact] at hleft
      rcases hleft with hsuffix | hnot
      · rcases List.suffix_cons_iff.mp hsuffix with heq | hsuffix
        · exact absurd (List.cons.inj heq).1.symm hop
        · exact .inl hsuffix
      · exact .inr fun h => hnot (by simp [h])
  · refine hfits.hands q c a ?_ hact
    rcases h with ⟨g, hmem⟩ | ⟨t, hcall, rfl⟩
    · exact .inl ⟨g, List.mem_cons_of_mem _ hmem⟩
    · cases op with
      | push q₀ g₀ c₀ =>
        obtain ⟨rfl, rfl⟩ : q₀ = q ∧ _ = t := by
          simpa [Op.call?, SerialTaskQueue.Op.entry] using hcall
        -- what the call carries now was handed over in the script before
        exact .inl ⟨g₀, List.mem_cons_self⟩
      | _ => simp [Op.call?, SerialTaskQueue.Op.entry] at hcall

/-- A local step keeps what a thread does in place. -/
lemma fits_local {id : ℕ} {m m' : Member Q} (hfits : m.Fits chainOf) (h : Local id m m') :
    m'.Fits chainOf := by
  cases h with
  | pushOrdinary q g huser =>
    have hcases := inUserCode_cases huser
    refine ⟨fun q' pt h => ?_, hfits.toPush, fun hidle => ?_, fun q' pt h => ?_, hfits.job,
      fun q' h => ?_, fun q' g' t hjob => codeLeft_of_user hfits huser _ [] hjob,
      hfits.increment, fun q' c a h hact => ?_⟩
    · rcases h with h | h
      · exact hfits.placed q' pt (.inl h)
      · obtain ⟨-, rfl⟩ : q = q' ∧ _ = pt := by simpa using h
        intro t ht
        obtain rfl := List.mem_singleton.mp ht
        trivial
    · exact Bool.noConfusion (hcases.2.1.symm.trans hidle)
    · obtain ⟨-, rfl⟩ : q = q' ∧ _ = pt := by simpa using h
      rfl
    · rcases h with h | h
      · exact hfits.pausing q' (.inl h)
      · simp at h
    · rcases h with hmem | ⟨t, hcall, rfl⟩
      · exact hfits.hands q' c a (.inl hmem) hact
      · obtain ⟨-, rfl⟩ : q = q' ∧ _ = t := by simpa using hcall
        cases hact
  | proceed _ huser hop => exact fits_proceed hfits huser hop
  | @actionEnds th sc hcall huser =>
    refine ⟨hfits.placed, fun q g c h => hfits.toPush q g c (by simp [h]), fun hidle => ?_,
      hfits.call, hfits.job, fun q h => hfits.pausing q (h.imp_left fun h => by simp [h]),
      fun q g t hjob => ?_, fun h => hfits.increment (List.mem_of_mem_tail h),
      fun q c a h hact => hfits.hands q c a (h.imp_left fun ⟨g, hmem⟩ =>
        ⟨g, List.mem_cons_of_mem _ hmem⟩) hact⟩
    · exact Bool.noConfusion (huser.symm.trans hidle)
    · have hleft := hfits.code q g t hjob
      cases hact : t.action with
      | ordinary => trivial
      | passDownChain k g' a =>
        rw [hact] at hleft
        -- a hop runs no action
        exact absurd hleft.1 not_iAction_suffix
      | actionToRun a =>
        rw [hact] at hleft
        rcases hleft with hsuffix | hnot
        · -- the action is the first thing in the code of the last functor
          rcases List.suffix_cons_iff.mp hsuffix with heq | hsuffix
          · refine .inr ?_
            rw [← (List.cons.inj heq).2]
            exact not_iAction_mem_sentryAction
          · exact .inl hsuffix
        · exact absurd (by simp) hnot
  | finish q g t =>
    refine ⟨fun q' pt h => ?_, by simp, fun _ => ⟨rfl, rfl⟩, by simp, by simp, by simp, by simp,
      by simp, by simp [Member.Hands]⟩
    obtain ⟨-, rfl⟩ : q = q' ∧ _ = pt := by simpa using h
    simp [Point.tasks]

/-- Inside a member function a thread stays inside it. -/
lemma inCall_step {m : Queue Closure} {pt n : Point Closure} {r : Result Closure}
    (h : pt.step m = some r) (hpt : inCall pt = true) (hn : r.next = some n) : inCall n = true := by
  cases operation h with
  | push | resumeLast => cases hn; rfl
  | notPaused | spin | lock | alreadyChosen | choose | pop | empty | clear | unlockSpawn =>
    cases hn
    exact hpt
  | unlockLoop | waiting | loop | finishedTask => cases hpt
  | _ => cases hn

/-- No operation leads to a pause or to a push: they come from calls only. -/
lemma next_ne_entry {m : Queue Closure} {pt n : Point Closure} {r : Result Closure}
    (h : pt.step m = some r) (hn : n = .pause ∨ ∃ t, n = .push t) (q q' : Q) :
    r.next.map (q, ·) ≠ some (q', n) := by
  rcases hn with rfl | ⟨t, rfl⟩ <;> cases operation h with
  | _ => simp

/-- Inside a member function the script stays. -/
lemma nextScriptThrough_of_inCall {pt : Point Closure} (hpt : inCall pt = true) (sc : List (Op Q)) :
    nextScriptThrough chainOf sc pt = sc := by
  cases pt with
  | loop => cases hpt
  | _ => rfl

lemma nextScriptThrough_of_not_loop {pt : Point Closure} (hloop : ∀ g t, pt ≠ .loop g t)
    (sc : List (Op Q)) : nextScriptThrough chainOf sc pt = sc := by
  cases pt with
  | loop g t => exact absurd rfl (hloop g t)
  | _ => rfl

/-- A thread makes an operation inside a member function that it called. -/
lemma fits_goto_call {m : Queue Closure} {job : Option (Q × Point Closure)} {sc : List (Op Q)}
    {pt : Point Closure} {r : Result Closure} (hfits : Member.Fits chainOf (⟨job, some (q, pt)⟩, sc))
    (hr : pt.step m = some r)
    (htasks : ∀ p ∈ r.points, ∀ t ∈ p.tasks, Placed (t.action.queues chainOf) q t.action) :
    Member.Fits chainOf (⟨job, r.next.map (q, ·)⟩, nextScriptThrough chainOf sc pt) := by
  have hin : inCall pt = true := hfits.call q pt rfl
  rw [nextScriptThrough_of_inCall hin]
  have hnext : ∀ q' p, r.next.map (q, ·) = some (q', p) → q' = q ∧ r.next = some p := by
    intro q' p h
    obtain ⟨p', hp', heq⟩ := Option.map_eq_some_iff.mp h
    cases heq
    exact ⟨rfl, hp'⟩
  refine ⟨fun q' p h => ?_, hfits.toPush, fun hidle => ?_, fun q' p h => ?_, hfits.job,
    fun q' h => ?_, fun q' g t hjob => ?_, hfits.increment, fun q' c a h hact => ?_⟩
  · rcases h with h | h
    · exact hfits.placed q' p (.inl h)
    · obtain ⟨rfl, hp⟩ := hnext q' p h
      exact htasks p (by simp [Result.points, hp])
  · exact absurd (hfits.idle hidle).1 (by simp)
  · exact inCall_step hr hin (hnext q' p h).2
  · rcases h with h | h
    · exact hfits.pausing q' (.inl h)
    · exact absurd h (next_ne_entry hr (.inl rfl) q q')
  · have hleft := hfits.code q' g t hjob
    cases hact : t.action with
    | ordinary => trivial
    | passDownChain k g' a =>
      rw [hact] at hleft
      exact ⟨hleft.1, fun q'' h => absurd h (next_ne_entry hr (.inl rfl) q q''),
        fun q'' t' h => absurd h (next_ne_entry hr (.inr ⟨t', rfl⟩) q q'')⟩
    | actionToRun a =>
      rw [hact] at hleft
      exact hleft
  · rcases h with hmem | ⟨t, hcall, -⟩
    · exact hfits.hands q' c a (.inl hmem) hact
    · exact absurd hcall (next_ne_entry hr (.inr ⟨t, rfl⟩) q q')

/-- A runner thread makes an operation of its own. -/
lemma fits_goto_job {m : Queue Closure} {sc : List (Op Q)} {pt : Point Closure} {r : Result Closure}
    (hfits : Member.Fits chainOf (⟨some (q, pt), none⟩, sc)) (hr : pt.step m = some r)
    (htasks : ∀ p ∈ r.points, ∀ t ∈ p.tasks, Placed (t.action.queues chainOf) q t.action) :
    Member.Fits chainOf (⟨r.next.map (q, ·), none⟩, nextScriptThrough chainOf sc pt) := by
  -- a runner thread that is not executing has no script
  have hidle : sc = [] := by
    refine (hfits.idle ?_).2
    cases pt with
    | execute g t => cases hr
    | _ => rfl
  subst hidle
  rcases pt.loop_or with ⟨g, t, rfl⟩ | hloop
  · obtain rfl := Option.some.inj hr
    have hplaced : Placed (t.action.queues chainOf) q t.action :=
      hfits.placed q _ (.inl rfl) t (by simp [Point.tasks])
    refine ⟨fun q' p h => ?_, fun q' g' c h => placed_queues_of_code_mem hplaced h,
      (by simp [Thread.inUserCode]), (by simp), next_ne_entry hr (.inl rfl) q, fun q' h => ?_,
      fun q' g' t' hjob => ?_, fun h => not_increment_mem_code (List.mem_of_mem_tail h),
      fun q' c a h hact => ?_⟩
    · obtain ⟨rfl, rfl⟩ : q = q' ∧ _ = p := by simpa using h
      exact htasks _ (by simp [Result.points])
    · obtain ⟨rfl, k, g', a, hact⟩ := eq_of_pause_mem_code hplaced (h.resolve_right (by simp))
      exact ⟨g, t, k, g', a, rfl, hact⟩
    · obtain ⟨rfl, rfl, rfl⟩ : q = q' ∧ g = g' ∧ t = t' := by simpa using hjob
      show CodeLeft (t.action.queues chainOf) none (t.action.code (t.action.queues chainOf)) t.action
      cases t.action with
      | ordinary => trivial
      | passDownChain k g' a => exact ⟨List.suffix_rfl, by simp, by simp⟩
      | actionToRun a => exact .inl List.suffix_rfl
    · -- what the new script pushes is handed on by the functor that begins
      obtain ⟨g', hmem⟩ := h.resolve_right (by simp)
      obtain ⟨k, g₁, a', hhop, hact', hnext⟩ := hop_of_push_mem_code hmem
      obtain rfl := Option.some.inj (hact'.symm.trans hact)
      exact .inr ⟨q, g, t, k, g₁, rfl, hhop, hnext⟩
  · rw [nextScriptThrough_of_not_loop hloop]
    refine ⟨fun q' p h => ?_, by simp, fun _ => ⟨rfl, rfl⟩, by simp,
      next_ne_entry hr (.inl rfl) q, by simp, fun q' g t hjob => ?_, by simp,
      by simp [Member.Hands]⟩
    · have hmap : r.next.map (q, ·) = some (q', p) := h.resolve_right (by simp)
      obtain ⟨p', hp', heq⟩ := Option.map_eq_some_iff.mp hmap
      cases heq
      exact htasks p (by simp [Result.points, hp'])
    · obtain ⟨p', hp', heq⟩ := Option.map_eq_some_iff.mp hjob
      cases heq
      have hpoint : .execute g t ∈ r.points := by simp [Result.points, hp']
      exact absurd (SerialTaskQueue.eq_loop_of_execute hr hpoint) (hloop g t)

/-- A thread that is about to execute a functor is inside no call. -/
lemma thread_of_loop {th : Thread Q Closure} {sc : List (Op Q)} {g : ℕ} {t : QueuedTask Closure}
    (hfits : Member.Fits chainOf (th, sc)) (hpt : th.next? = some (q, .loop g t)) :
    th = ⟨some (q, .loop g t), none⟩ := by
  rcases th with ⟨job, _ | c⟩
  · obtain rfl : job = some (q, .loop g t) := hpt
    rfl
  · obtain rfl : c = (q, .loop g t) := Option.some.inj hpt
    exact absurd (hfits.call q _ rfl) (by simp [inCall])

/-- It has no script of its own. -/
lemma fits_of_loop {th : Thread Q Closure} {sc : List (Op Q)} {g : ℕ} {t : QueuedTask Closure}
    (hfits : Member.Fits chainOf (th, sc)) (hpt : th.next? = some (q, .loop g t)) :
    sc = [] ∧ Placed (t.action.queues chainOf) q t.action := by
  obtain rfl := thread_of_loop hfits hpt
  exact ⟨(hfits.idle rfl).2, hfits.placed q _ (.inl rfl) t (by simp [Point.tasks])⟩

variable [DecidableEq Q] {s : State Q}

/-- Only the push of a task adds to what was pushed. -/
lemma forall_pushed_step {P : QueuedTask Closure → Prop} {m : Queue Closure} {pt : Point Closure}
    {r : Result Closure} (h : pt.step m = some r) (hm : ∀ t ∈ m.pushed, P t)
    (hpt : ∀ t ∈ pt.tasks, P t) : ∀ t ∈ r.queue.pushed, P t := by
  cases operation h with
  | push t =>
    intro t' ht'
    rcases List.mem_append.mp ht' with hold | hnew
    · exact hm t' hold
    · exact hpt t' hnew
  | _ => exact hm

/-- **Threads and queues fit together in every reachable state.** -/
theorem fits (h : ReachableThrough chainOf s) : s.Fits chainOf := by
  refine h.invariant_of (J := ReachableThrough chainOf) (I := State.Fits chainOf) id
    ⟨by simp [State.members, membersOf], by simp, by simp⟩ fun s a s' hs ih _ hstep => ?_
  have hset : ∀ {i m'}, m'.Fits chainOf → ∀ m ∈ s.members.set i m', m.Fits chainOf := by
    intro i m' hm' m hm
    rcases List.mem_or_eq_of_mem_set hm with hold | rfl
    · exact ih.members m hold
    · exact hm'
  cases through_cases (bounded_through hs) hstep with
  | forked hmembers hqueue _ =>
    refine ⟨fun m hm => ?_, by rw [hqueue]; exact ih.tasks, by rw [hqueue]; exact ih.pushed⟩
    rw [hmembers] at hm
    rcases List.mem_append.mp hm with hold | hnew
    · exact ih.members m hold
    · obtain rfl := List.mem_singleton.mp hnew
      -- a new thread has neither a functor nor a script
      exact ⟨by simp, by simp, fun _ => ⟨rfl, rfl⟩, by simp, by simp, by simp, by simp, by simp,
        by simp [Member.Hands]⟩
  | pushed i g th sc hm huser hmembers hqueue _ =>
    refine ⟨?_, by rw [hqueue]; exact ih.tasks, by rw [hqueue]; exact ih.pushed⟩
    rw [hmembers]
    exact hset (fits_pushed (ih.members _ (List.mem_of_getElem? hm)) huser)
  | moved i m m' hm hlocal hmembers hqueue _ =>
    refine ⟨?_, by rw [hqueue]; exact ih.tasks, by rw [hqueue]; exact ih.pushed⟩
    rw [hmembers]
    exact hset (fits_local (ih.members _ (List.mem_of_getElem? hm)) hlocal)
  | advanced i th sc q pt r _ hm hpt hr hmembers hqueue _ =>
    have hfits := ih.members _ (List.mem_of_getElem? hm)
    have hplaced := hfits.placed q pt (SerialTaskQueue.Thread.next?_eq hpt)
    -- the queue passes on what it was given: both its tasks and those of the thread belong to it
    obtain ⟨hqtasks, hpoints⟩ := forall_tasks_step
      (P := fun t => Placed (t.action.queues chainOf) q t.action) hr (ih.tasks q) hplaced
    have hqpushed := forall_pushed_step
      (P := fun t => Placed (t.action.queues chainOf) q t.action) hr (ih.pushed q) hplaced
    refine ⟨?_, fun q' => ?_, fun q' => ?_⟩
    · rw [hmembers]
      intro m hm'
      rcases List.mem_append.mp hm' with hold | hnew
      · refine hset ?_ m hold
        rcases th with ⟨job, _ | c⟩
        · obtain rfl : job = some (q, pt) := hpt
          exact fits_goto_job hfits hr hpoints
        · obtain rfl : c = (q, pt) := Option.some.inj hpt
          exact fits_goto_call hfits hr hpoints
      · obtain ⟨t, ht, rfl⟩ := List.mem_map.mp hnew
        refine ⟨fun q' p h => ?_, by simp, fun _ => ⟨rfl, rfl⟩, by simp, by simp, by simp,
          by simp, by simp, by simp [Member.Hands]⟩
        obtain ⟨rfl, rfl⟩ : q = q' ∧ _ = p := by simpa using h
        exact hpoints _ (List.mem_append_right _ (List.mem_map_of_mem ht))
    · rw [hqueue]
      by_cases hq : q' = q
      · subst hq
        rw [Function.update_self]
        exact hqtasks
      · rw [Function.update_of_ne hq]
        exact ih.tasks q'
    · rw [hqueue]
      by_cases hq : q' = q
      · subst hq
        rw [Function.update_self]
        exact hqpushed
      · rw [Function.update_of_ne hq]
        exact ih.pushed q'

/-- The same with one chain. -/
theorem good (h : Reachable m_queues s) : s.Good m_queues where
  members m hm := ((fits h.through).members m hm).good
  tasks q t ht := placed_queues.mp ((fits h.through).tasks q t ht)

end UnifyPrototype.SerialTaskQueueChain
