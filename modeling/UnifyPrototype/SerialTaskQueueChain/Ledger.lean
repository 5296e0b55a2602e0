import UnifyPrototype.SerialTaskQueueChain.Placement

/-!
# Ledgers

How often a queue is paused, and where the functors of an action are, is spread over the threads,
their scripts and the queues. A ledger adds all of it up; a step moves its total by what the step
does at one thread and one queue.
-/

namespace UnifyPrototype.SerialTaskQueueChain

open UnifyPrototype.Utils
open SerialTaskQueue (QueuedTask Queue Point Thread Result Operation operation)

/-- What program points, operations still to come and queues weigh. -/
structure Ledger (Q : Type) where
  point : Q → Point Closure → ℕ
  op : Op Q → ℕ
  queue : Q → Queue Closure → ℕ

variable {Q : Type} {m_queues : List Q} {s s' : State Q} {l : Ledger Q}

/-- The weight of the program point a thread is at. -/
def Ledger.at (l : Ledger Q) (c : Option (Q × Point Closure)) : ℕ :=
  c.elim 0 fun c => l.point c.1 c.2

/-- The weight of a thread and its script. -/
def Ledger.member (l : Ledger Q) (m : Member Q) : ℕ :=
  l.at m.1.job + l.at m.1.call + tally l.op m.2

/-- The weight of everything. -/
def Ledger.total (l : Ledger Q) (m_queues : List Q) (s : State Q) : ℕ :=
  tally l.member s.members + tally (fun q => l.queue q (s.base.queue q)) m_queues

@[simp] lemma Ledger.at_none : l.at none = 0 := rfl

@[simp] lemma Ledger.at_some (c : Q × Point Closure) : l.at (some c) = l.point c.1 c.2 := rfl

lemma Ledger.at_map (q : Q) (n : Option (Point Closure)) :
    l.at (n.map (q, ·)) = n.elim 0 (l.point q) := by
  cases n <;> rfl

variable (m_queues) in
/-- What one thread has is part of the total. -/
lemma Ledger.le_total {m : Member Q} (hm : m ∈ s.members) : l.member m ≤ l.total m_queues s :=
  (le_tally_of_mem l.member hm).trans (Nat.le_add_right _ _)

variable (m_queues) in
/-- Two threads at different places weigh at most the total. -/
lemma Ledger.add_le_total {i j : ℕ} {m m' : Member Q} (hij : i ≠ j) (hi : s.members[i]? = some m)
    (hj : s.members[j]? = some m') : l.member m + l.member m' ≤ l.total m_queues s :=
  (add_le_tally l.member hij hi hj).trans (Nat.le_add_right _ _)

/-- One ledger weighs at most as much as another one everywhere, so it does in total. -/
lemma Ledger.total_le_total {l' : Ledger Q} (hmember : ∀ m ∈ s.members, l.member m ≤ l'.member m)
    (hqueue : ∀ q ∈ m_queues, l.queue q (s.base.queue q) ≤ l'.queue q (s.base.queue q)) :
    l.total m_queues s ≤ l'.total m_queues s :=
  Nat.add_le_add (tally_le_tally hmember) (tally_le_tally hqueue)

/-! ## How a step moves the total -/

/-- A new thread has nothing. -/
lemma Ledger.total_forked (hmembers : s'.members = s.members ++ [(⟨none, none⟩, [])])
    (hqueue : s'.base.queue = s.base.queue) : l.total m_queues s' = l.total m_queues s := by
  simp [Ledger.total, hmembers, hqueue, Ledger.member]

variable (m_queues) in
/-- The total moves with the thread that changes. -/
lemma Ledger.total_set {i : ℕ} {m m' : Member Q} (hm : s.members[i]? = some m)
    (hmembers : s'.members = s.members.set i m') (hqueue : s'.base.queue = s.base.queue) :
    l.total m_queues s' + l.member m = l.total m_queues s + l.member m' := by
  have hset := tally_set l.member m' hm
  simp only [Ledger.total, hmembers, hqueue]
  omega

/-- The total grows by the new operations of a thread. -/
lemma Ledger.total_pushed {i : ℕ} {th : Thread Q Closure} {sc new : List (Op Q)}
    (hm : s.members[i]? = some (th, sc))
    (hmembers : s'.members = s.members.set i (th, new ++ sc))
    (hqueue : s'.base.queue = s.base.queue) :
    l.total m_queues s' = l.total m_queues s + tally l.op new := by
  have hset := l.total_set m_queues hm hmembers hqueue
  simp only [Ledger.member, tally_append] at hset
  omega

/-- What a thread has before an operation and after it. -/
lemma Ledger.member_goto {th : Thread Q Closure} {c : Q × Point Closure} (h : th.next? = some c)
    (n : Option (Q × Point Closure)) (sc sc' : List (Op Q)) :
    l.member (th.goto n, sc') + l.point c.1 c.2 + tally l.op sc
      = l.member (th, sc) + l.at n + tally l.op sc' := by
  rcases th with ⟨job, _ | c'⟩
  · obtain rfl : job = some c := h
    simp only [Thread.goto, Ledger.member, Ledger.at_some, Ledger.at_none]
    omega
  · obtain rfl : c' = c := Option.some.inj h
    simp only [Thread.goto, Ledger.member, Ledger.at_some]
    omega

/-! ## Steps outside the queues -/

lemma Ledger.member_call {th : Thread Q Closure} (hcall : th.call = none)
    (c : Option (Q × Point Closure)) (sc : List (Op Q)) :
    l.member ({ th with call := c }, sc) = l.member (th, sc) + l.at c := by
  simp only [Ledger.member, hcall, Ledger.at_none]
  omega

/-- The ledger does not see ordinary tasks and the user's functors, and a call weighs `R` what the
operation weighed that makes it. -/
structure Ledger.Pays (l : Ledger Q) (R : ℕ → ℕ → Prop) : Prop where
  ordinary : ∀ q id g, l.point q (.push ⟨id, g, .ordinary⟩) = 0
  iAction : l.op .iAction = 0
  finish : ∀ q g t, l.point q (.finishedTask g) = l.point q (.execute g t)
  call : ∀ op id, R (l.at (op.call?.map fun c => (c.1, c.2.entry id))) (l.op op)

/-- A ledger that pays for itself is the same after a local step. -/
lemma Ledger.member_local {id : ℕ} {m m' : Member Q} (h : Local id m m') (hpays : l.Pays (· = ·)) :
    l.member m' = l.member m := by
  cases h with
  | pushOrdinary q g huser =>
    rw [Ledger.member_call (inUserCode_cases huser).1, Ledger.at_some, hpays.ordinary, Nat.add_zero]
  | @proceed op _ _ hcall =>
    rw [Ledger.member_call hcall, hpays.call]
    simp only [Ledger.member, tally_cons]
    omega
  | actionEnds => simp only [Ledger.member, tally_cons, hpays.iAction, Nat.zero_add]
  | finish q g t => simp [Ledger.member, hpays.finish q g t]

/-- A ledger whose calls weigh no more than their operations does not grow in a local step. -/
lemma Ledger.member_local_le {id : ℕ} {m m' : Member Q} (h : Local id m m')
    (hpays : l.Pays (· ≤ ·)) : l.member m' ≤ l.member m := by
  cases h with
  | pushOrdinary q g huser =>
    rw [Ledger.member_call (inUserCode_cases huser).1, Ledger.at_some, hpays.ordinary, Nat.add_zero]
  | @proceed op _ _ hcall =>
    have := hpays.call op id
    rw [Ledger.member_call hcall]
    simp only [Ledger.member, tally_cons]
    omega
  | actionEnds => simp only [Ledger.member, tally_cons, hpays.iAction, Nat.zero_add, le_refl]
  | finish q g t => simp [Ledger.member, hpays.finish q g t]

/-! ## Steps inside the queues -/

variable [DecidableEq Q]

/-- An operation of a thread moves the total by what it does to the thread, to its script and to
the queue, if the queue is one of the chain. -/
lemma Ledger.total_advanced (hnodup : m_queues.Nodup) {i : ℕ} {th : Thread Q Closure}
    {sc sc' : List (Op Q)} {q : Q} {pt : Point Closure} {r : Result Closure}
    (hm : s.members[i]? = some (th, sc)) (hpt : th.next? = some (q, pt))
    (hmembers : s'.members = s.members.set i (th.goto (r.next.map (q, ·)), sc')
      ++ r.spawned.toList.map fun t => (⟨some (q, .waiting t), none⟩, []))
    (hqueue : s'.base.queue = Function.update s.base.queue q r.queue) :
    l.total m_queues s' + l.point q pt + tally l.op sc
        + (if q ∈ m_queues then l.queue q (s.base.queue q) else 0)
      = l.total m_queues s + r.weight (l.point q) + tally l.op sc'
        + if q ∈ m_queues then l.queue q r.queue else 0 := by
  have hset := tally_set l.member (th.goto (r.next.map (q, ·)), sc') hm
  have hgoto := l.member_goto hpt (r.next.map (q, ·)) sc sc'
  have hspawn : tally l.member
      (r.spawned.toList.map fun t => ((⟨some (q, .waiting t), none⟩, []) : Member Q))
        = r.spawned.elim 0 fun t => l.point q (.waiting t) := by
    cases r.spawned <;> simp [Ledger.member]
  rw [Ledger.at_map] at hgoto
  dsimp only at hgoto
  simp only [Ledger.total, hmembers, hqueue, tally_append, hspawn, Result.weight]
  split
  next hq =>
    have hupdate := tally_update l.queue s.base.queue r.queue hnodup hq
    omega
  next hq =>
    rw [tally_update_of_notMem l.queue s.base.queue r.queue hq]
    omega

/-- The thread and the code that begins to execute. -/
lemma Ledger.total_loop (hnodup : m_queues.Nodup) {i g : ℕ} {th : Thread Q Closure} {q : Q}
    {t : QueuedTask Closure} {r : Result Closure} {code : List (Op Q)}
    (hr : (Point.loop g t).step (s.base.queue q) = some r)
    (hm : s.members[i]? = some (th, [])) (hpt : th.next? = some (q, .loop g t))
    (hmembers : s'.members
      = s.members.set i (th.goto (r.next.map (q, ·)), code)
        ++ r.spawned.toList.map fun t => (⟨some (q, .waiting t), none⟩, []))
    (hqueue : s'.base.queue = Function.update s.base.queue q r.queue)
    (hbegun : ∀ m begun, l.queue q { m with begun := begun } = l.queue q m) :
    l.total m_queues s' + l.point q (.loop g t)
      = l.total m_queues s + l.point q (.execute g t) + tally l.op code := by
  obtain rfl := Option.some.inj hr
  have hadv := l.total_advanced hnodup hm hpt hmembers hqueue
  simp only [Result.weight, Option.elim_some, Option.elim_none, tally_nil, hbegun] at hadv
  omega

/-! ## Functors under way -/

/-- The ledger of the functors that weigh `v`: those that are still to be pushed, in a thread's
hands or in a queue. An executing functor counts as its code, where `d` weighs the operations that
push nothing, and `e` weighs the program points that have no functor. -/
def carried (m_queues : List Q) (v : Closure → ℕ) (d : Op Q → ℕ) (e : Q → Point Closure → ℕ) :
    Ledger Q where
  point q
    | .execute _ _ => 0
    | pt => e q pt + if q ∈ m_queues then tally (fun t => v t.action) pt.tasks else 0
  op
    | .push q _ c => if q ∈ m_queues then v c else 0
    | op => d op
  queue _ m := tally (fun t => v t.action) m.tasks

variable (m_queues) in
/-- Functors do not get lost inside the queues. -/
lemma carried_step (v : Closure → ℕ) (d : Op Q → ℕ) (e : Q → Point Closure → ℕ) {q : Q}
    {m : Queue Closure} {pt : Point Closure} {r : Result Closure} (h : pt.step m = some r)
    (hloop : ∀ g t, pt ≠ .loop g t) :
    r.weight ((carried m_queues v d e).point q)
        + (if q ∈ m_queues then (carried m_queues v d e).queue q r.queue else 0) + e q pt
      = (carried m_queues v d e).point q pt
        + (if q ∈ m_queues then (carried m_queues v d e).queue q m else 0) + r.weight (e q) := by
  by_cases hq : q ∈ m_queues
  · cases operation h with
    | loop g t => exact absurd rfl (hloop g t)
    | pop c htasks => simp [carried, Result.weight, hq, Point.tasks, htasks]; omega
    | _ => simp [carried, Result.weight, hq, Point.tasks]; try omega
  · cases operation h with
    | loop g t => exact absurd rfl (hloop g t)
    | _ => simp [carried, Result.weight, hq]; try omega

/-- An operation that begins no task leaves the total as it is, where only functors count. -/
lemma total_carried_of_not_loop {v : Closure → ℕ} {d : Op Q → ℕ} (hnodup : m_queues.Nodup)
    {i : ℕ} {th : Thread Q Closure} {sc : List (Op Q)} {q : Q} {pt : Point Closure}
    {r : Result Closure} (hloop : ∀ g t, pt ≠ .loop g t) (hr : pt.step (s.base.queue q) = some r)
    (hm : s.members[i]? = some (th, sc)) (hpt : th.next? = some (q, pt))
    (hmembers : s'.members = s.members.set i (th.goto (r.next.map (q, ·)), sc)
      ++ r.spawned.toList.map fun t => (⟨some (q, .waiting t), none⟩, []))
    (hqueue : s'.base.queue = Function.update s.base.queue q r.queue) :
    (carried m_queues v d fun _ _ => 0).total m_queues s'
      = (carried m_queues v d fun _ _ => 0).total m_queues s := by
  have hadv := (carried m_queues v d fun _ _ => 0).total_advanced hnodup hm hpt hmembers hqueue
  have hstep := carried_step m_queues v d (fun _ _ => 0) (q := q) hr hloop
  have hzero : r.weight (fun _ : Point Closure => 0) = 0 := by
    rcases r with ⟨_, _ | _, _ | _⟩ <;> rfl
  rw [hzero] at hstep
  omega

end UnifyPrototype.SerialTaskQueueChain
