import UnifyPrototype.SerialTaskQueueChain.Holding

/-!
# Where an action is

An action that was handed to a chain goes from one functor to the next one, and at the end only its
sentry is left. At every moment it is in one place.
-/

namespace UnifyPrototype.SerialTaskQueueChain

open UnifyPrototype.Utils
open SerialTaskQueue (QueuedTask Queue Point Thread Result)

variable {Q : Type} [DecidableEq Q] {m_queues L : List Q} {chainOf : ℕ → List Q}
  {s s' : State Q} {q : Q} {A : ℕ → Bool} {e : ℕ → ℕ}

/-! ## The ledger -/

/-- Whether the functor belongs to the action `k`. -/
def Closure.isOf (k : ℕ) (c : Closure) : ℕ :=
  if c.action? = some k then 1 else 0

/-- Whether the operation is the last one of the action `k`. -/
def Op.ends (k : ℕ) : Op Q → ℕ
  | .decrement b => if b = k then 1 else 0
  | _ => 0

/-- In how many places the action `k` is. -/
def bearing (m_queues : List Q) (k : ℕ) : Ledger Q :=
  carried m_queues (Closure.isOf k) (Op.ends k) fun _ _ => 0

/-- Whether the functor belongs to an action of `A`. -/
def Closure.isIn (A : ℕ → Bool) (c : Closure) : ℕ :=
  match c.action? with
  | some a => if A a then 1 else 0
  | none => 0

/-- The last operation of an action weighs `e`. -/
def Op.last (e : ℕ → ℕ) : Op Q → ℕ
  | .decrement b => e b
  | _ => 0

/-- The functors of the actions of `A`, and the decrements that are still to come. -/
def borne (L : List Q) (A : ℕ → Bool) (e : ℕ → ℕ) : Ledger Q :=
  carried L (Closure.isIn A) (Op.last e) fun _ _ => 0

/-- What the code of a functor weighs: a hop carries the action on, the action leaves its sentry
behind. -/
def Closure.leaves (A : ℕ → Bool) (e : ℕ → ℕ) : Closure → ℕ
  | .ordinary => 0
  | .passDownChain _ _ a => if A a then 1 else 0
  | .actionToRun a => e a

lemma bearing_eq (k : ℕ) :
    bearing L k = borne L (fun b => b == k) fun b => if b = k then 1 else 0 := by
  have hisOf : Closure.isOf k = Closure.isIn fun b => b == k := by
    funext c
    cases c <;> simp [Closure.isOf, Closure.isIn, Closure.action?]
  have hends : (Op.ends k : Op Q → ℕ) = Op.last fun b => if b = k then 1 else 0 := by
    funext op
    cases op <;> rfl
  rw [bearing, borne, hisOf, hends]

/-! ## The code of the chain -/

/-- A call of `push` hands its action over, unless the chain is empty. -/
lemma borne_push (hcover : Covers L chainOf) (g a : ℕ) :
    tally (borne L A e).op (push (chainOf a) g a) = if chainOf a ≠ [] ∧ A a then 1 else 0 := by
  have hsub := hcover.subset a
  rcases hchain : chainOf a with _ | ⟨q₀, _ | ⟨q₁, qs⟩⟩
  · simp [push, borne, carried, Op.last]
  · rw [hchain] at hsub
    have hq : q₀ ∈ L := hsub (by simp)
    simp [push, borne, carried, Op.last, hq, Closure.isIn, Closure.action?]
  · rw [hchain] at hsub
    have hq : q₀ ∈ L := hsub (by simp)
    simp [push, borne, carried, Op.last, hq, Closure.isIn, Closure.action?]

/-- Of the sentry of an action only the decrement weighs. -/
lemma tally_sentryAction (b : ℕ) :
    tally (borne L A e).op (sentryAction m_queues b) = e b := by
  have hresume : tally (borne L A e).op ((m_queues.reverse.drop 1).map (.resume b)) = 0 := by
    rw [tally_map]
    exact tally_eq_zero.mpr fun _ _ => rfl
  rw [sentryAction, tally_append, hresume]
  simp [borne, carried, Op.last]

/-- The code of a closure weighs what it leaves. -/
lemma borne_code {c : Closure} (hcover : Covers L chainOf) (hc : Placed (c.queues chainOf) q c) :
    tally (borne L A e).op (c.code (c.queues chainOf)) = c.leaves A e := by
  cases c with
  | ordinary => simp [Closure.code, borne, carried, Closure.leaves, Op.last]
  | passDownChain k g a =>
    obtain ⟨hk, hlt, -⟩ := hc
    change k < (chainOf a).length at hlt
    show tally _ (passDownChain (chainOf a) k g a) = _
    have hmem : (chainOf a)[k] ∈ L := hcover.subset a (List.getElem_mem hlt)
    rw [passDownChain_eq hk hlt]
    by_cases hlast : k + 1 = (chainOf a).length <;>
      simp [borne, carried, Closure.leaves, Op.last, hmem, hlast, Closure.isIn, Closure.action?]
  | actionToRun a =>
    show tally (borne L A e).op (.iAction :: sentryAction (chainOf a) a) = _
    rw [tally_cons, tally_sentryAction]
    exact Nat.zero_add _

/-! ## The steps -/

/-- The chain's code goes on: only the last operation of an action takes something away. -/
lemma total_borne_proceed {i id : ℕ} {th : Thread Q Closure} {op : Op Q} {sc : List (Op Q)}
    (hm : s.members[i]? = some (th, op :: sc)) (hcall : th.call = none)
    (hmembers : s'.members = s.members.set i
      ({ th with call := op.call?.map fun c => (c.1, c.2.entry id) }, sc))
    (hqueue : s'.base.queue = s.base.queue) :
    (borne L A e).total L s' + op.last e = (borne L A e).total L s := by
  have hset := (borne L A e).total_set L hm hmembers hqueue
  have hmember := (borne L A e).member_call hcall (op.call?.map fun c => (c.1, c.2.entry id)) sc
  have hop : (borne L A e).at (op.call?.map fun c => (c.1, c.2.entry id)) + op.last e
      = (borne L A e).op op := by
    cases op <;>
      simp [Op.call?, borne, carried, Op.last, Point.tasks, SerialTaskQueue.Op.entry]
  simp only [Ledger.member, tally_cons] at hset hmember
  omega

/-- Ordinary tasks and the ends of functors do not count. -/
lemma total_borne_pushOrdinary {i id : ℕ} {q' : Q} {g : ℕ} {th : Thread Q Closure}
    {sc : List (Op Q)} (hm : s.members[i]? = some (th, sc)) (huser : inUserCode th sc = true)
    (hmembers : s'.members
      = s.members.set i ({ th with call := some (q', .push ⟨id, g, .ordinary⟩) }, sc))
    (hqueue : s'.base.queue = s.base.queue) :
    (borne L A e).total L s' = (borne L A e).total L s := by
  have hset := (borne L A e).total_set L hm hmembers hqueue
  have hmember := (borne L A e).member_call (inUserCode_cases huser).1
    (some (q', .push ⟨id, g, .ordinary⟩)) sc
  have hat : (borne L A e).at (some (q', .push ⟨id, g, .ordinary⟩)) = 0 := by
    simp [borne, carried, Point.tasks, Closure.isIn, Closure.action?]
  omega

lemma total_borne_actionEnds {i : ℕ} {th : Thread Q Closure} {sc : List (Op Q)}
    (hm : s.members[i]? = some (th, .iAction :: sc))
    (hmembers : s'.members = s.members.set i (th, sc)) (hqueue : s'.base.queue = s.base.queue) :
    (borne L A e).total L s' = (borne L A e).total L s := by
  have hset := (borne L A e).total_set L hm hmembers hqueue
  have hop : (borne L A e).op .iAction = 0 := rfl
  simp only [Ledger.member, tally_cons, hop] at hset
  omega

lemma total_borne_finish {i : ℕ} {q' : Q} {g : ℕ} {t : QueuedTask Closure}
    (hm : s.members[i]? = some (⟨some (q', .execute g t), none⟩, []))
    (hmembers : s'.members = s.members.set i (⟨some (q', .finishedTask g), none⟩, []))
    (hqueue : s'.base.queue = s.base.queue) :
    (borne L A e).total L s' = (borne L A e).total L s := by
  have hset := (borne L A e).total_set L hm hmembers hqueue
  simpa [Ledger.member, borne, carried, Point.tasks] using hset

/-- A functor that begins to execute is replaced by what its code leaves. -/
lemma total_borne_loop (hcover : Covers L chainOf) {i g : ℕ} {th : Thread Q Closure} {q' : Q}
    {t : QueuedTask Closure} {r : Result Closure}
    (hplaced : Placed (t.action.queues chainOf) q' t.action)
    (hr : (Point.loop g t).step (s.base.queue q') = some r)
    (hm : s.members[i]? = some (th, [])) (hpt : th.next? = some (q', .loop g t))
    (hmembers : s'.members = s.members.set i
        (th.goto (r.next.map (q', ·)), nextScriptThrough chainOf [] (.loop g t))
      ++ r.spawned.toList.map fun t => (⟨some (q', .waiting t), none⟩, []))
    (hqueue : s'.base.queue = Function.update s.base.queue q' r.queue) :
    (borne L A e).total L s' + t.action.isIn A
      = (borne L A e).total L s + t.action.leaves A e := by
  have hloop := (borne L A e).total_loop hcover.nodup hr hm hpt hmembers hqueue fun _ _ => rfl
  have hcode : tally (borne L A e).op (nextScriptThrough chainOf [] (.loop g t))
      = t.action.leaves A e := borne_code hcover hplaced
  have hpoint : (borne L A e).point q' (.loop g t) = t.action.isIn A := by
    rcases hcover.mem_of_placed hplaced with hordinary | hmem
    · simp [borne, carried, Point.tasks, hordinary, Closure.isIn, Closure.action?]
    · simp [borne, carried, Point.tasks, hmem]
  have hexecute : (borne L A e).point q' (.execute g t) = 0 := rfl
  omega

/-- What an operation at a queue moves: nothing, unless a functor begins to execute. -/
lemma borne_advance (hcover : Covers L chainOf) {i : ℕ} {th : Thread Q Closure} {sc : List (Op Q)}
    {q' : Q} {pt : Point Closure} {r : Result Closure} (hfits : Member.Fits chainOf (th, sc))
    (hr : pt.step (s.base.queue q') = some r) (hm : s.members[i]? = some (th, sc))
    (hpt : th.next? = some (q', pt))
    (hmembers : s'.members
      = s.members.set i (th.goto (r.next.map (q', ·)), nextScriptThrough chainOf sc pt)
        ++ r.spawned.toList.map fun t => (⟨some (q', .waiting t), none⟩, []))
    (hqueue : s'.base.queue = Function.update s.base.queue q' r.queue) :
    (∃ g t, pt = .loop g t ∧ th = ⟨some (q', .loop g t), none⟩ ∧ sc = [] ∧
        (borne L A e).total L s' + t.action.isIn A
          = (borne L A e).total L s + t.action.leaves A e) ∨
      (∀ g t, pt ≠ .loop g t) ∧ (borne L A e).total L s' = (borne L A e).total L s := by
  rcases pt.loop_or with ⟨g, t, rfl⟩ | hloop
  · obtain ⟨rfl, hplaced⟩ := fits_of_loop hfits hpt
    exact .inl ⟨g, t, rfl, thread_of_loop hfits hpt, rfl,
      total_borne_loop hcover hplaced hr hm hpt hmembers hqueue⟩
  · rw [nextScriptThrough_of_not_loop hloop] at hmembers
    exact .inr ⟨hloop, total_carried_of_not_loop hcover.nodup hloop hr hm hpt hmembers hqueue⟩

/-- A hop hands its action on, and an action leaves its sentry: where the sentry weighs as much as
the action, the queues' code moves nothing. -/
lemma total_borne_advance (hcover : Covers L chainOf) (he : ∀ a, e a = if A a then 1 else 0) {i : ℕ}
    {th : Thread Q Closure} {sc : List (Op Q)} {q' : Q} {pt : Point Closure} {r : Result Closure}
    (hfits : Member.Fits chainOf (th, sc)) (hr : pt.step (s.base.queue q') = some r)
    (hm : s.members[i]? = some (th, sc)) (hpt : th.next? = some (q', pt))
    (hmembers : s'.members
      = s.members.set i (th.goto (r.next.map (q', ·)), nextScriptThrough chainOf sc pt)
        ++ r.spawned.toList.map fun t => (⟨some (q', .waiting t), none⟩, []))
    (hqueue : s'.base.queue = Function.update s.base.queue q' r.queue) :
    (borne L A e).total L s' = (borne L A e).total L s := by
  rcases borne_advance (A := A) (e := e) hcover hfits hr hm hpt hmembers hqueue with
    ⟨g, t, -, -, -, hmoved⟩ | ⟨-, hsame⟩
  · have hleaves : t.action.leaves A e = t.action.isIn A := by
      cases t.action <;> simp [Closure.leaves, Closure.isIn, Closure.action?, he]
    omega
  · exact hsame

/-! ## One place -/

/-- **Every action is in at most one place**, and in none before it is handed to a chain. -/
theorem bearing_le_through (hcover : Covers L chainOf) (h : ReachableThrough chainOf s) (k : ℕ) :
    (bearing L k).total L s ≤ if k < s.nextAction then 1 else 0 := by
  rw [bearing_eq]
  refine h.invariant_of (J := ReachableThrough chainOf)
    (I := fun s => (borne L (fun b => b == k) fun b => if b = k then 1 else 0).total L s
      ≤ if k < s.nextAction then 1 else 0) id ?_ fun s a s' hs ih _ hstep => ?_
  · simp [Ledger.total, State.members, membersOf, borne, carried]
  cases label_cases (bounded_through hs) hstep with
  | fork hmembers hqueue hnext => rw [Ledger.total_forked hmembers hqueue, hnext]; exact ih
  | push hm huser hmembers hqueue hnext =>
    rw [Ledger.total_pushed hm hmembers hqueue, hnext, borne_push hcover]
    simp only [beq_iff_eq]
    split_ifs at * <;> omega
  | pushOrdinary hm huser hmembers hqueue hnext =>
    rw [total_borne_pushOrdinary hm huser hmembers hqueue, hnext]
    exact ih
  | proceed hm hcall huser hop hmembers hqueue hnext =>
    have hproceed := total_borne_proceed (L := L) (A := fun b => b == k)
      (e := fun b => if b = k then 1 else 0) hm hcall hmembers hqueue
    rw [hnext]
    omega
  | actionEnds hm hcall huser hmembers hqueue hnext =>
    rw [total_borne_actionEnds hm hmembers hqueue, hnext]
    exact ih
  | @advance i th sc q' pt r hm hpt hr hmembers hqueue hnext =>
    rw [hnext]
    refine le_trans ?_ ih
    have hfits := (fits hs).members _ (List.mem_of_getElem? hm)
    exact (total_borne_advance hcover (fun a => by simp) hfits hr hm hpt hmembers hqueue).le
  | finish hm hmembers hqueue hnext =>
    rw [total_borne_finish hm hmembers hqueue, hnext]
    exact ih

/-- The same with one chain. -/
theorem bearing_le (hnodup : m_queues.Nodup) (h : Reachable m_queues s) (k : ℕ) :
    (bearing m_queues k).total m_queues s ≤ if k < s.nextAction then 1 else 0 :=
  bearing_le_through (covers_const hnodup) h.through k

lemma tally_ends (k b : ℕ) : tally (bearing m_queues k).op (sentryAction m_queues b)
    = if b = k then 1 else 0 := by
  rw [bearing_eq, tally_sentryAction]

end UnifyPrototype.SerialTaskQueueChain
