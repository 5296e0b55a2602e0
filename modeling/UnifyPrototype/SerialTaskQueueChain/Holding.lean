import UnifyPrototype.SerialTaskQueueChain.Ledger

/-!
# Which actions hold which queues

An action holds the queues that its hops have paused and its sentry has not resumed. The pauses of
a queue are as many as its holders.
-/

namespace UnifyPrototype.SerialTaskQueueChain

open UnifyPrototype.Utils
open SerialTaskQueue (QueuedTask Queue Point Thread Result Operation operation)

variable {Q : Type} [DecidableEq Q] {m_queues L : List Q} {chainOf : ℕ → List Q}
  {s s' : State Q} {q : Q} {A : ℕ → Bool} {a : Label Q}

/-! ## The ledgers -/

/-- Whether the functor belongs to an action of `A` that holds `q`. -/
def Closure.holds (m_queues : List Q) (q : Q) (A : ℕ → Bool) : Closure → ℕ
  | .ordinary => 0
  | .passDownChain k _ a => if A a ∧ q ∈ m_queues.take (k - 1) then 1 else 0
  | .actionToRun a => if A a ∧ q ∈ m_queues.dropLast then 1 else 0

/-- Whether the operation resumes `q` for an action of `A`. -/
def Op.resumes (q : Q) (A : ℕ → Bool) : Op Q → ℕ
  | .resume a q' => if A a ∧ q' = q then 1 else 0
  | _ => 0

/-- The same where several chains share the queues. -/
def Closure.holdsThrough (chainOf : ℕ → List Q) (q : Q) (A : ℕ → Bool) (c : Closure) : ℕ :=
  c.holds (c.queues chainOf) q A

/-- How often `q` is held by actions of `A`. -/
def held (m_queues : List Q) (q : Q) (A : ℕ → Bool) : Ledger Q :=
  carried m_queues (Closure.holds m_queues q A) (Op.resumes q A) fun _ _ => 0

/-- Inside the decrement of `resume` of `q`. -/
def resuming (q q' : Q) : Point Closure → ℕ
  | .resume => if q' = q then 1 else 0
  | _ => 0

/-- How often `q` is held by some action, or is being resumed. -/
def holding (m_queues : List Q) (q : Q) : Ledger Q :=
  carried m_queues (Closure.holds m_queues q fun _ => true) (Op.resumes q fun _ => true) (resuming q)

/-- How often `q` is held by actions of `A`, on whichever chain they are. `L` lists the queues of all
chains. -/
def heldThrough (L : List Q) (chainOf : ℕ → List Q) (q : Q) (A : ℕ → Bool) : Ledger Q :=
  carried L (Closure.holdsThrough chainOf q A) (Op.resumes q A) fun _ _ => 0

/-- How often `q` is held by some action of some chain, or is being resumed. -/
def holdingThrough (L : List Q) (chainOf : ℕ → List Q) (q : Q) : Ledger Q :=
  carried L (Closure.holdsThrough chainOf q fun _ => true) (Op.resumes q fun _ => true) (resuming q)

/-- How often `q` is paused or about to be paused. -/
def pausing (q : Q) : Ledger Q where
  point
    | q', .pause => if q' = q then 1 else 0
    | _, _ => 0
  op
    | .pause q' => if q' = q then 1 else 0
    | _ => 0
  queue q' m := if q' = q then m.pauseCount else 0

lemma holdsThrough_const (q : Q) (A : ℕ → Bool) :
    Closure.holdsThrough (fun _ => m_queues) q A = Closure.holds m_queues q A := by
  funext c
  cases c <;> rfl

lemma heldThrough_const (q : Q) (A : ℕ → Bool) :
    heldThrough m_queues (fun _ => m_queues) q A = held m_queues q A := by
  rw [heldThrough, holdsThrough_const, held]

lemma holdingThrough_const (q : Q) :
    holdingThrough m_queues (fun _ => m_queues) q = holding m_queues q := by
  rw [holdingThrough, holdsThrough_const, holding]

/-- `L` lists the queues of all chains once, and so does every chain its own. -/
structure Covers (L : List Q) (chainOf : ℕ → List Q) : Prop where
  nodup : L.Nodup
  chain : ∀ a, (chainOf a).Nodup
  subset : ∀ a, chainOf a ⊆ L

omit [DecidableEq Q] in
/-- The queues of one chain are all there are. -/
lemma covers_const (hnodup : m_queues.Nodup) : Covers m_queues fun _ => m_queues :=
  ⟨hnodup, fun _ => hnodup, fun _ => List.Subset.refl _⟩

omit [DecidableEq Q] in
/-- A functor of a chain belongs to a listed queue. -/
lemma Covers.mem_of_placed {c : Closure} (hcover : Covers L chainOf)
    (hc : Placed (c.queues chainOf) q c) : c = .ordinary ∨ q ∈ L := by
  rcases SerialTaskQueueChain.mem_of_placed hc with hordinary | hmem
  · exact .inl hordinary
  · cases c with
    | ordinary => exact .inl rfl
    | passDownChain k g a | actionToRun a => exact .inr (hcover.subset a hmem)

/-! ## The code of a hop -/

/-- The functor is a hop of an action of `A`. -/
def Closure.isHop (A : ℕ → Bool) : Closure → Bool
  | .passDownChain _ _ a => A a
  | .ordinary | .actionToRun _ => false

/-- A hop pauses the queue it comes from. -/
lemma pausing_code {c : Closure} {q' : Q} (hc : Placed m_queues q' c) :
    tally (pausing q).op (c.code m_queues)
      = if c.isHop (fun _ => true) ∧ q' = q then 1 else 0 := by
  cases c with
  | ordinary => simp [Closure.code, pausing, Closure.isHop]
  | passDownChain k g a =>
    obtain ⟨hk, hlt, hq⟩ := hc
    rw [List.getElem?_eq_getElem (by omega)] at hq
    rw [Closure.code, passDownChain_eq hk hlt, Option.some.inj hq]
    simp [pausing, Closure.isHop]
  | actionToRun a =>
    have hzero : tally (pausing q).op (actionToRun m_queues a) = 0 := by
      rw [tally_eq_zero]
      intro op hop
      rcases List.mem_cons.mp hop with rfl | hop
      · rfl
      · rcases mem_sentryAction.mp hop with ⟨q'', -, rfl⟩ | rfl <;> rfl
    rw [Closure.code, hzero]
    rfl

/-- The queues that a hop's functor holds when it has paused its own one. -/
lemma holds_next {k : ℕ} {q' : Q} (hk : 1 ≤ k) (hq' : m_queues[k - 1]? = some q')
    (hnodup : m_queues.Nodup) (g a : ℕ) :
    (if k + 1 = m_queues.length then Closure.actionToRun a
        else .passDownChain (k + 1) g a).holds m_queues q A
      = (Closure.passDownChain k g a).holds m_queues q A + if A a ∧ q' = q then 1 else 0 := by
  obtain ⟨hpred, rfl⟩ := List.getElem?_eq_some_iff.mp hq'
  have htake : m_queues.take k = m_queues.take (k - 1) ++ [m_queues[k - 1]] := by
    rw [List.take_append_getElem, Nat.sub_add_cancel hk]
  have hnotMem : m_queues[k - 1] ∉ m_queues.take (k - 1) := by
    have hnodup' := hnodup.sublist (List.take_sublist k _)
    rw [htake, List.nodup_append] at hnodup'
    intro hmem
    exact hnodup'.2.2 _ hmem _ (by simp) rfl
  have hnext : (if k + 1 = m_queues.length then Closure.actionToRun a
      else .passDownChain (k + 1) g a).holds m_queues q A
        = if A a ∧ q ∈ m_queues.take k then 1 else 0 := by
    split
    next hlast =>
      rw [Closure.holds, List.dropLast_eq_take, ← hlast, Nat.add_sub_cancel]
    next => rw [Closure.holds, Nat.add_sub_cancel]
  have hmem : q ∈ m_queues.take k ↔ q ∈ m_queues.take (k - 1) ∨ m_queues[k - 1] = q := by
    rw [htake, List.mem_append, List.mem_singleton, eq_comm]
  rw [hnext, Closure.holds]
  by_cases hq : m_queues[k - 1] = q
  · have hnot : q ∉ m_queues.take (k - 1) := hq ▸ hnotMem
    simp [hmem, hq, hnot]
  · simp [hmem, hq]

/-- At the end of an action each queue of the chain is resumed once. -/
lemma tally_resumes (a : ℕ) (l : List Q) (hl : l.Nodup) :
    tally (Op.resumes q A) (l.map (.resume a)) = if A a ∧ q ∈ l then 1 else 0 := by
  induction l with
  | nil => simp
  | cons c l ih =>
    obtain ⟨hc, hl⟩ := List.nodup_cons.mp hl
    rw [List.map_cons, tally_cons, ih hl]
    by_cases hcq : c = q
    · subst hcq
      by_cases hA : A a <;> simp [Op.resumes, hA, hc]
    · by_cases hA : A a <;> simp [Op.resumes, hA, hcq, Ne.symm hcq]

/-- What the code of a functor holds: what the functor held, and for a hop its own queue. -/
lemma holds_code {c : Closure} {q' : Q} {e : Q → Point Closure → ℕ} (hcover : Covers L chainOf)
    (hc : Placed (c.queues chainOf) q' c) :
    tally (carried L (Closure.holdsThrough chainOf q A) (Op.resumes q A) e).op
        (c.code (c.queues chainOf))
      = c.holdsThrough chainOf q A + if c.isHop A ∧ q' = q then 1 else 0 := by
  cases c with
  | ordinary =>
    simp [Closure.code, carried, Closure.isHop, Closure.holdsThrough, Closure.holds, Op.resumes]
  | passDownChain k g a =>
    obtain ⟨hk, hlt, hq⟩ := hc
    change k < (chainOf a).length at hlt
    change (chainOf a)[k - 1]? = some q' at hq
    have hnext := holds_next (q := q) (A := A) hk hq (hcover.chain a) g a
    rw [List.getElem?_eq_getElem (by omega)] at hq
    show tally _ (passDownChain (chainOf a) k g a) = _
    rw [passDownChain_eq hk hlt, Option.some.inj hq]
    have hmem : (chainOf a)[k] ∈ L := hcover.subset a (List.getElem_mem hlt)
    refine Eq.trans ?_ hnext
    by_cases hlast : k + 1 = (chainOf a).length <;>
      simp [carried, Op.resumes, hmem, Closure.holdsThrough, Closure.queues, hlast]
  | actionToRun a =>
    have hpush : ∀ op ∈ actionToRun (chainOf a) a,
        (carried L (Closure.holdsThrough chainOf q A) (Op.resumes q A) e).op op
          = Op.resumes q A op := by
      intro op hop
      rcases List.mem_cons.mp hop with rfl | hop
      · rfl
      · rcases mem_sentryAction.mp hop with ⟨q'', -, rfl⟩ | rfl <;> rfl
    show tally _ (actionToRun (chainOf a) a) = _
    rw [tally_congr hpush]
    unfold actionToRun sentryAction
    rw [List.drop_one, List.tail_reverse, tally_cons, tally_append, tally_resumes]
    · have hholds : (Closure.actionToRun a).holdsThrough chainOf q A
          = (Closure.actionToRun a).holds (chainOf a) q A := rfl
      rw [hholds]
      simp [Op.resumes, Closure.isHop, Closure.holds]
    · exact List.nodup_reverse.mpr ((hcover.chain a).sublist (List.dropLast_sublist _))

/-- An action that is handed to a chain holds nothing. -/
lemma holds_push (g a : ℕ) (e : Q → Point Closure → ℕ) :
    tally (carried L (Closure.holdsThrough chainOf q A) (Op.resumes q A) e).op
      (push (chainOf a) g a) = 0 := by
  rcases hchain : chainOf a with _ | ⟨q₀, _ | ⟨q₁, qs⟩⟩ <;>
    simp [push, carried, Closure.holdsThrough, Closure.holds, Closure.queues, Op.resumes, hchain]

lemma pausing_push (g a : ℕ) : tally (pausing q).op (push m_queues g a) = 0 := by
  rcases m_queues with _ | ⟨q₀, _ | ⟨q₁, qs⟩⟩ <;> simp [push, pausing]

/-! ## Steps outside the queues -/

/-- The ledger of the pauses to come pays for itself. -/
lemma pays_pausing : (pausing q).Pays (· = ·) where
  ordinary _ _ _ := rfl
  iAction := rfl
  finish _ _ _ := rfl
  call op id := by cases op <;> simp [Op.call?, pausing, SerialTaskQueue.Op.entry]

/-- So does the ledger of who holds the queue. -/
lemma pays_holding : (holdingThrough L chainOf q).Pays (· = ·) where
  ordinary _ _ _ := by
    simp [holdingThrough, carried, resuming, Point.tasks, Closure.holdsThrough, Closure.holds]
  iAction := rfl
  finish _ _ _ := by simp [holdingThrough, carried, resuming, Point.tasks]
  call op id := by
    cases op <;>
      simp [Op.call?, holdingThrough, carried, resuming, Point.tasks, SerialTaskQueue.Op.entry,
        Op.resumes]

variable (L chainOf q A) in
/-- For some of the actions only, a call holds no more than its operation. -/
lemma pays_held : (heldThrough L chainOf q A).Pays (· ≤ ·) where
  ordinary _ _ _ := by
    simp [heldThrough, carried, Point.tasks, Closure.holdsThrough, Closure.holds]
  iAction := rfl
  finish _ _ _ := by simp [heldThrough, carried, Point.tasks]
  call op id := by
    cases op <;>
      simp [Op.call?, heldThrough, carried, Point.tasks, SerialTaskQueue.Op.entry, Op.resumes]

/-! ## Steps inside the queues -/

/-- A functor that begins to execute holds what it held, and a hop its own queue as well. -/
lemma total_carried_loop {e : Q → Point Closure → ℕ} (he : ∀ q g t, e q (.loop g t) = 0)
    (hcover : Covers L chainOf) {i g : ℕ} {th : Thread Q Closure} {q' : Q} {t : QueuedTask Closure}
    {r : Result Closure} (hplaced : Placed (t.action.queues chainOf) q' t.action)
    (hr : (Point.loop g t).step (s.base.queue q') = some r)
    (hm : s.members[i]? = some (th, [])) (hpt : th.next? = some (q', .loop g t))
    (hmembers : s'.members = s.members.set i
        (th.goto (r.next.map (q', ·)), nextScriptThrough chainOf [] (.loop g t))
      ++ r.spawned.toList.map fun t => (⟨some (q', .waiting t), none⟩, []))
    (hqueue : s'.base.queue = Function.update s.base.queue q' r.queue) :
    (carried L (Closure.holdsThrough chainOf q A) (Op.resumes q A) e).total L s'
      = (carried L (Closure.holdsThrough chainOf q A) (Op.resumes q A) e).total L s
        + if t.action.isHop A ∧ q' = q then 1 else 0 := by
  set l := carried L (Closure.holdsThrough chainOf q A) (Op.resumes q A) e with hl
  have hloop := l.total_loop hcover.nodup hr hm hpt hmembers hqueue fun _ _ => rfl
  have hpoint : l.point q' (.loop g t) = t.action.holdsThrough chainOf q A := by
    rcases hcover.mem_of_placed hplaced with hordinary | hmem
    · simp [hl, carried, he, Point.tasks, hordinary, Closure.holdsThrough, Closure.holds]
    · simp [hl, carried, he, Point.tasks, hmem]
  have hexecute : l.point q' (.execute g t) = 0 := rfl
  have hcode : tally l.op (nextScriptThrough chainOf [] (.loop g t)) = _ :=
    holds_code hcover hplaced
  omega

/-- Pauses and resumes move the two sides alike. -/
lemma pausing_step (q' : Q) {m : Queue Closure} {pt : Point Closure} {r : Result Closure}
    (h : pt.step m = some r) (hq : q ∈ L) :
    r.weight ((pausing q).point q') + (if q' ∈ L then (pausing q).queue q' r.queue else 0)
        + resuming q q' pt
      = (pausing q).point q' pt + (if q' ∈ L then (pausing q).queue q' m else 0)
        + r.weight (resuming q q') := by
  by_cases hqq : q' = q
  · subst hqq
    cases operation h with
    | pause => simp [pausing, resuming, Result.weight, hq]; omega
    | resume hcount | resumeLast hcount =>
      simp [pausing, resuming, Result.weight, hq, hcount]
    | _ => simp [pausing, resuming, Result.weight, hq]
  · cases operation h with
    | _ => simp [pausing, resuming, Result.weight, hqq]

/-- **The pauses of a queue are as many as its holders**, on whichever chains they are. -/
theorem pausing_eq_holding_through (hcover : Covers L chainOf) (hq : q ∈ L)
    (h : ReachableThrough chainOf s) :
    (pausing q).total L s = (holdingThrough L chainOf q).total L s := by
  refine h.invariant_of (J := ReachableThrough chainOf)
    (I := fun s => (pausing q).total L s = (holdingThrough L chainOf q).total L s) id ?_
    fun s a s' hs ih _ hstep => ?_
  · simp [Ledger.total, State.members, membersOf, pausing, holdingThrough, carried]
  cases through_cases (bounded_through hs) hstep with
  | forked hmembers hqueue _ =>
    rw [Ledger.total_forked hmembers hqueue, Ledger.total_forked hmembers hqueue, ih]
  | pushed i g th sc hm huser hmembers hqueue _ =>
    rw [Ledger.total_pushed hm hmembers hqueue, Ledger.total_pushed hm hmembers hqueue, ih,
      pausing_push, holdingThrough, holds_push]
  | moved i m m' hm hlocal hmembers hqueue _ =>
    have hp := (pausing q).total_set L hm hmembers hqueue
    have hh := (holdingThrough L chainOf q).total_set L hm hmembers hqueue
    rw [Ledger.member_local hlocal pays_pausing] at hp
    rw [Ledger.member_local hlocal pays_holding] at hh
    omega
  | advanced i th sc q' pt r _ hm hpt hr hmembers hqueue _ =>
    rcases pt.loop_or with ⟨g, t, rfl⟩ | hloop'
    · -- the code that begins pauses a queue for each holder that it makes
      obtain ⟨rfl, hplaced⟩ := fits_of_loop ((fits hs).members _ (List.mem_of_getElem? hm)) hpt
      have hp := (pausing q).total_loop hcover.nodup hr hm hpt hmembers hqueue fun _ _ => rfl
      have hh := total_carried_loop (q := q) (A := fun _ => true) (e := resuming q)
        (fun _ _ _ => rfl) hcover hplaced hr hm hpt hmembers hqueue
      have hcode : tally (pausing q).op (nextScriptThrough chainOf [] (.loop g t)) = _ :=
        pausing_code hplaced
      rw [hcode] at hp
      change (pausing q).total L s' + 0 = (pausing q).total L s + 0 + _ at hp
      change (holdingThrough L chainOf q).total L s'
        = (holdingThrough L chainOf q).total L s + _ at hh
      omega
    · rw [nextScriptThrough_of_not_loop hloop'] at hmembers
      have hp := (pausing q).total_advanced hcover.nodup hm hpt hmembers hqueue
      have hh := (holdingThrough L chainOf q).total_advanced hcover.nodup hm hpt hmembers hqueue
      unfold holdingThrough at hh ih ⊢
      have hp' := pausing_step q' hr hq
      have hh' := carried_step L (Closure.holdsThrough chainOf q fun _ => true)
        (Op.resumes q fun _ => true) (resuming q) (q := q') hr hloop'
      omega

/-- The same with one chain. -/
theorem pausing_eq_holding (hnodup : m_queues.Nodup) (hq : q ∈ m_queues)
    (h : Reachable m_queues s) :
    (pausing q).total m_queues s = (holding m_queues q).total m_queues s := by
  rw [← holdingThrough_const]
  exact pausing_eq_holding_through (covers_const hnodup) hq h.through

/-! ## Holders come and go -/

/-- Nobody begins to hold `q`, except a hop at `q` that begins to execute. -/
lemma held_step (hnodup : m_queues.Nodup) (hs : Reachable m_queues s)
    (hstep : step m_queues s a = some s')
    (hhop : ∀ i th g t, a = .advance i → s.base.threads[i]? = some th →
      th.next? = some (q, .loop g t) → t.action.isHop A = false) :
    (held m_queues q A).total m_queues s' ≤ (held m_queues q A).total m_queues s := by
  have hcover := covers_const hnodup
  rw [← stepThrough_const] at hstep
  rw [← heldThrough_const]
  cases through_cases (bounded hs) hstep with
  | forked hmembers hqueue _ => rw [Ledger.total_forked hmembers hqueue]
  | pushed i g th sc hm huser hmembers hqueue _ =>
    have hpush : tally (heldThrough m_queues (fun _ => m_queues) q A).op
        (push m_queues g s.nextAction) = 0 := holds_push g s.nextAction _
    rw [Ledger.total_pushed hm hmembers hqueue, hpush, Nat.add_zero]
  | moved i m m' hm hlocal hmembers hqueue _ =>
    have hset := (heldThrough m_queues (fun _ => m_queues) q A).total_set m_queues hm hmembers hqueue
    have hle := Ledger.member_local_le hlocal (pays_held m_queues (fun _ => m_queues) q A)
    omega
  | advanced i th sc q' pt r hlabel hm hpt hr hmembers hqueue _ =>
    rcases pt.loop_or with ⟨g, t, rfl⟩ | hloop'
    · obtain ⟨rfl, hplaced⟩ :=
        fits_of_loop ((fits hs.through).members _ (List.mem_of_getElem? hm)) hpt
      have hh := total_carried_loop (q := q) (A := A) (e := fun _ _ => 0)
        (fun _ _ _ => rfl) hcover hplaced hr hm hpt hmembers hqueue
      have hnot : ¬ (t.action.isHop A = true ∧ q' = q) := by
        rintro ⟨hisHop, rfl⟩
        rw [hhop i th g t hlabel (thread_of_members hm).1 hpt] at hisHop
        cases hisHop
      rw [if_neg hnot] at hh
      exact hh.le
    · rw [nextScriptThrough_of_not_loop hloop'] at hmembers
      exact (total_carried_of_not_loop hcover.nodup hloop' hr hm hpt hmembers hqueue).le

lemma Closure.holds_mono (A : ℕ → Bool) (c : Closure) :
    c.holds m_queues q A ≤ c.holds m_queues q fun _ => true := by
  cases c with
  | ordinary => rfl
  | passDownChain k g a => cases hA : A a <;> simp [Closure.holds, hA]
  | actionToRun a => cases hA : A a <;> simp [Closure.holds, hA]

/-- More functors and more operations weigh more. -/
lemma carried_mono {v v' : Closure → ℕ} {d d' : Op Q → ℕ} {e e' : Q → Point Closure → ℕ}
    (hv : ∀ c, v c ≤ v' c) (hd : ∀ op, d op ≤ d' op) (he : ∀ q pt, e q pt ≤ e' q pt) :
    (carried m_queues v d e).total m_queues s ≤ (carried m_queues v' d' e').total m_queues s := by
  have htasks : ∀ l : List (QueuedTask Closure),
      tally (fun t => v t.action) l ≤ tally (fun t => v' t.action) l :=
    fun l => tally_le_tally fun t _ => hv t.action
  have hpoint : ∀ c, (carried m_queues v d e).at c ≤ (carried m_queues v' d' e').at c := by
    rintro (_ | ⟨q', pt⟩)
    · rfl
    · have htasks' := htasks pt.tasks
      have he' := he q' pt
      cases pt with
      | execute g t => rfl
      | _ =>
        by_cases hq : q' ∈ m_queues <;> simp only [Ledger.at_some, carried, hq, if_true,
          if_false] <;> omega
  have hop : ∀ op, (carried m_queues v d e).op op ≤ (carried m_queues v' d' e').op op := by
    intro op
    cases op with
    | push q' g c => by_cases hq : q' ∈ m_queues <;> simp [carried, hq, hv]
    | _ => exact hd _
  refine Ledger.total_le_total (fun m _ => ?_) fun q' _ => htasks _
  exact Nat.add_le_add (Nat.add_le_add (hpoint _) (hpoint _)) (tally_le_tally fun op _ => hop op)

lemma resumes_mono (A : ℕ → Bool) (op : Op Q) :
    op.resumes q A ≤ op.resumes q fun _ => true := by
  cases op with
  | resume a q' => cases hA : A a <;> simp [Op.resumes, hA]
  | _ => rfl

variable (m_queues) in
/-- The holders among some actions are at most those among all. -/
lemma held_mono (A : ℕ → Bool) :
    (held m_queues q A).total m_queues s ≤ (held m_queues q fun _ => true).total m_queues s :=
  carried_mono (Closure.holds_mono A) (resumes_mono A) fun _ _ => le_rfl

variable (m_queues) in
/-- Who is held for some actions is held. -/
lemma held_le_holding (A : ℕ → Bool) :
    (held m_queues q A).total m_queues s ≤ (holding m_queues q).total m_queues s :=
  carried_mono (Closure.holds_mono A) (resumes_mono A) fun _ _ => Nat.zero_le _

/-- A thread that is not about to pause `q` weighs nothing in `pausing`. -/
lemma pausing_member_eq_zero {m : Member Q} (hfits : m.Fits chainOf)
    (h : ¬ (Op.pause q ∈ m.2 ∨ m.1.call = some (q, .pause))) : (pausing q).member m = 0 := by
  rw [not_or] at h
  have hpoint : ∀ c : Option (Q × Point Closure), c ≠ some (q, .pause) → (pausing q).at c = 0 := by
    rintro (_ | ⟨q', pt⟩) hne
    · rfl
    · cases pt with
      | pause =>
        have hqq : q' ≠ q := fun h => hne (by rw [h])
        simp [pausing, hqq]
      | _ => rfl
  have hop : tally (pausing q).op m.2 = 0 := by
    refine tally_eq_zero.mpr fun op hop => ?_
    cases op with
    | pause q' =>
      have hqq : q' ≠ q := fun hqq => h.1 (hqq ▸ hop)
      simp [pausing, hqq]
    | _ => rfl
  rw [Ledger.member, hpoint _ (hfits.job q), hpoint _ h.2, hop]

/-- A queue that is neither paused nor has a running task has no holders. -/
lemma held_eq_zero (hnodup : m_queues.Nodup) (hq : q ∈ m_queues) (h : Reachable m_queues s)
    (hclear : (s.base.queue q).taskChosen = false) (hcount : (s.base.queue q).pauseCount = 0)
    (A : ℕ → Bool) : (held m_queues q A).total m_queues s = 0 := by
  have hnot : ∀ g t, ∀ m ∈ s.members, m.1.job ≠ some (q, .execute g t) := by
    intro g t m hm hjob
    obtain ⟨i, hi⟩ := List.getElem?_of_mem hm
    have hth := (thread_of_members hi).1
    have hmem : .execute g t ∈ s.base.points q :=
      SerialTaskQueue.mem_points (List.mem_of_getElem? hth) (.inl hjob)
    rw [SerialTaskQueue.taskChosen_of_owns (reachable_base h) rfl hmem] at hclear
    cases hclear
  have hpausing : (pausing q).total m_queues s = 0 := by
    refine Nat.add_eq_zero_iff.mpr ⟨tally_eq_zero.mpr fun m hm => ?_, tally_eq_zero.mpr fun q' _ => ?_⟩
    · have hfits := (fits h.through).members m hm
      refine pausing_member_eq_zero hfits fun hpause => ?_
      obtain ⟨g, t, _, _, _, hjob, -⟩ := hfits.pausing q hpause
      exact hnot g t m hm hjob
    · by_cases hqq : q' = q
      · simp [pausing, hqq, hcount]
      · simp [pausing, hqq]
  have hle := held_le_holding m_queues (s := s) (q := q) A
  rw [← pausing_eq_holding hnodup hq h, hpausing] at hle
  omega

/-! ## The guard of `resume` -/

/-- A hop that has not finished its pause will hold the queue it pauses. -/
lemma pausing_le_held {m : Member Q} (hcover : Covers L chainOf) (hfits : m.Fits chainOf) :
    (pausing q).member m ≤ (heldThrough L chainOf q fun _ => true).member m := by
  by_cases hpause : Op.pause q ∈ m.2 ∨ m.1.call = some (q, .pause)
  · obtain ⟨g, t, k, g', a, hjob, hact⟩ := hfits.pausing q hpause
    have hplaced := hfits.placed q _ (.inl hjob) t (by simp [Point.tasks])
    have hleft := hfits.code q g t hjob
    rw [hact] at hplaced hleft
    obtain ⟨hk, hlt, hq⟩ := hplaced
    change k < (chainOf a).length at hlt
    change (chainOf a)[k - 1]? = some q at hq
    -- the functor that the hop will push holds `q`
    have hnext : 1 ≤ (if k + 1 = (chainOf a).length then Closure.actionToRun a
        else .passDownChain (k + 1) g' a).holdsThrough chainOf q fun _ => true := by
      have hholds := holds_next (q := q) (A := fun _ => true) hk hq (hcover.chain a) g' a
      have hone : (if (fun _ => true) a = true ∧ q = q then 1 else 0) = 1 := if_pos ⟨rfl, rfl⟩
      rw [hone] at hholds
      have hqueues : ∀ c : Closure, c.action? = some a →
          c.holdsThrough chainOf q (fun _ => true) = c.holds (chainOf a) q fun _ => true := by
        intro c hc
        rw [Closure.holdsThrough, Closure.queues_of_action hc]
      rw [hqueues _ (by split <;> rfl)]
      omega
    rw [List.getElem?_eq_getElem (by omega)] at hq
    have hjob' : (pausing q).at m.1.job = 0 := by rw [hjob]; rfl
    obtain ⟨hsuffix, hcall, -⟩ := hleft
    change m.2 <:+ passDownChain (chainOf a) k g' a at hsuffix
    rw [passDownChain_eq hk hlt, Option.some.inj hq] at hsuffix
    have hmem : (chainOf a)[k] ∈ L := hcover.subset a (List.getElem_mem hlt)
    rcases List.suffix_cons_iff.mp hsuffix with hsc | hsuffix
    · -- the pause is still to come, so it is not what the thread is inside of
      have hcall' : (pausing q).at m.1.call = 0 := by
        rcases hc : m.1.call with _ | ⟨q', pt⟩
        · rfl
        · cases pt with
          | pause => have := hcall q' hc; rw [hsc] at this; simp at this
          | _ => rfl
      simp only [Ledger.member, hsc, tally_cons, tally_nil, hjob', hcall']
      simp only [pausing, heldThrough, carried, Op.resumes, hmem, if_true]
      omega
    · rcases List.suffix_cons_iff.mp hsuffix with hsc | hsc
      · have hcall' : (pausing q).at m.1.call ≤ 1 := by
          rcases m.1.call with _ | ⟨q', pt⟩
          · exact Nat.zero_le _
          · cases pt <;> simp [pausing]
            split <;> simp
        simp only [Ledger.member, hsc, tally_cons, tally_nil, hjob']
        simp only [pausing, heldThrough, carried, hmem, if_true] at hcall' ⊢
        omega
      · rw [List.suffix_nil] at hsc
        rcases hpause with hin | hc
        · rw [hsc] at hin
          cases hin
        · have := hcall q hc
          rw [hsc] at this
          simp at this
  · rw [pausing_member_eq_zero hfits hpause]
    exact Nat.zero_le _

/-- Inside the decrement of a `resume` a thread weighs one more. -/
lemma pausing_add_le_holding {m : Member Q} (hcover : Covers L chainOf) (hfits : m.Fits chainOf) :
    (pausing q).member m + (if m.1.call = some (q, .resume) then 1 else 0)
      ≤ (holdingThrough L chainOf q).member m := by
  have hle := pausing_le_held (q := q) hcover hfits
  have hat : ∀ c, (heldThrough L chainOf q fun _ => true).at c
      + (if c = some (q, .resume) then 1 else 0) ≤ (holdingThrough L chainOf q).at c := by
    rintro (_ | ⟨q', pt⟩)
    · simp
    · cases pt with
      | resume => simp [heldThrough, holdingThrough, carried, resuming, Point.tasks]
      | _ => simp [heldThrough, holdingThrough, carried]
  have hjob := hat m.1.job
  have hcall := hat m.1.call
  have hop : tally (heldThrough L chainOf q fun _ => true).op m.2
      = tally (holdingThrough L chainOf q).op m.2 := rfl
  simp only [Ledger.member] at hle ⊢
  omega

/-- **Every `resume` of a sentry comes after a pause.** The decrement never finds a count of `0`, so
no run of the model is cut short there. -/
theorem pauseCount_ne_zero_of_resume (hcover : Covers L chainOf) (hq : q ∈ L)
    (h : ReachableThrough chainOf s) {m : Member Q} (hm : m ∈ s.members)
    (hcall : m.1.call = some (q, .resume)) : (s.base.queue q).pauseCount ≠ 0 := by
  intro hzero
  have htotal := pausing_eq_holding_through hcover hq h
  have hqueue : tally (fun q' => (pausing q).queue q' (s.base.queue q')) L = 0 := by
    refine tally_eq_zero.mpr fun q' _ => ?_
    by_cases hqq : q' = q
    · simp [pausing, hqq, hzero]
    · simp [pausing, hqq]
  have hmembers := tally_le_tally (v := (holdingThrough L chainOf q).member) fun m' hm' =>
    pausing_add_le_holding hcover ((fits h).members m' hm')
  have hone := le_tally_of_mem (fun m => if m.1.call = some (q, .resume) then 1 else 0) hm
  rw [tally_add] at hmembers
  simp only [hcall, if_true] at hone
  unfold Ledger.total at htotal
  omega

end UnifyPrototype.SerialTaskQueueChain
