import UnifyPrototype.SerialTaskQueue.Progress
import UnifyPrototype.SerialTaskQueueChain.Bearing

/-!
# In which order the actions of a chain start

The hop on a queue of a chain pushes its action onto the next queue before it is over, and no other
task begins on its own queue until then. So the actions of a chain are pushed onto the next queue in
the order in which their hops have begun, and as the queues are FIFOs, the order stays the same from
the first queue to the last.
-/

namespace UnifyPrototype.SerialTaskQueueChain

open UnifyPrototype.Utils
open SerialTaskQueue (QueuedTask Queue Point Thread Result Operation operation)

variable {Q : Type} [DecidableEq Q] {L l : List Q} {chainOf : ℕ → List Q} {s s' : State Q}
  {p q : Q} {A : ℕ → Bool} {j k : ℕ}

/-! ## From one queue to the next -/

/-- How often the action `k` is pushed onto `q`, or about to be. -/
def handing (q : Q) (k : ℕ) : Ledger Q where
  point
    | q', .push t => if q' = q then t.action.isOf k else 0
    | _, _ => 0
  op
    | .push q' _ c => if q' = q then c.isOf k else 0
    | _ => 0
  queue q' m := if q' = q then tally (fun t => t.action.isOf k) m.pushed else 0

omit [DecidableEq Q] in
lemma isOf_eq_one {c : Closure} : c.isOf k = 1 ↔ c.action? = some k := by
  unfold Closure.isOf
  split <;> simp_all

omit [DecidableEq Q] in
lemma isOf_of_ne {c : Closure} (h : c.action? ≠ some k) : c.isOf k = 0 :=
  if_neg h

lemma pays_handing : (handing q k).Pays (· = ·) where
  ordinary _ _ _ := by simp [handing, Closure.isOf, Closure.action?]
  iAction := rfl
  finish _ _ _ := rfl
  call op id := by cases op <;> simp [Op.call?, handing, SerialTaskQueue.Op.entry]

/-- Pushing a task moves it from the thread to the queue. -/
lemma handing_step (q' : Q) {m : Queue Closure} {pt : Point Closure} {r : Result Closure}
    (h : pt.step m = some r) :
    r.weight ((handing q k).point q') + (if q' ∈ [q] then (handing q k).queue q' r.queue else 0)
      = (handing q k).point q' pt + if q' ∈ [q] then (handing q k).queue q' m else 0 := by
  by_cases hq : q' = q
  · subst hq
    cases operation h with
    | push t => simp [handing, Result.weight, Nat.add_comm]
    | _ => simp [handing, Result.weight]
  · cases operation h with
    | _ => simp [handing, Result.weight, hq]

/-- A call of `push` pushes onto the first queue only. -/
lemma handing_push (hfirst : (chainOf k).head? ≠ some q) (g a : ℕ) :
    tally (handing q k).op (push (chainOf a) g a) = 0 := by
  refine tally_eq_zero.mpr fun op hop => ?_
  cases op with
  | push q' g' c =>
    by_cases hq : q' = q
    · subst hq
      refine (if_pos rfl).trans (isOf_of_ne fun hact => hfirst ?_)
      obtain rfl := Option.some.inj ((action_of_mem_push hop).symm.trans hact)
      exact head_of_mem_push hop
    · exact if_neg hq
  | _ => rfl

omit [DecidableEq Q] in
/-- A queue is at one place of a chain. -/
lemma index_unique (hl : l.Nodup) {i i' : ℕ} (hi : l[i]? = some q) (hi' : l[i']? = some q) :
    i = i' := by
  obtain ⟨hlt, heq⟩ := List.getElem?_eq_some_iff.mp hi
  obtain ⟨hlt', heq'⟩ := List.getElem?_eq_some_iff.mp hi'
  exact (hl.getElem_inj_iff).mp (heq.trans heq'.symm)

omit [DecidableEq Q] in
/-- A queue that comes behind another one is not the first one. -/
lemma head_ne (hl : l.Nodup) (hq : l[j + 1]? = some q) : l.head? ≠ some q := by
  intro hhead
  rw [List.head?_eq_getElem?] at hhead
  cases index_unique hl hhead hq

omit [DecidableEq Q] in
lemma getLast_ne (hl : l.Nodup) (hp : l[j]? = some p) (hq : l[j + 1]? = some q) :
    l.getLast? ≠ some p := by
  intro hlast
  rw [List.getLast?_eq_getElem?] at hlast
  have hj := index_unique hl hp hlast
  have hlt := (List.getElem?_eq_some_iff.mp hq).1
  omega

/-- The hop of the action `k` that belongs to `p` pushes it onto `q`, and nothing else does. -/
lemma handing_code {c : Closure} {q' : Q} (hcover : Covers L chainOf)
    (hc : Placed (c.queues chainOf) q' c) (hp : (chainOf k)[j]? = some p)
    (hq : (chainOf k)[j + 1]? = some q) :
    tally (handing q k).op (c.code (c.queues chainOf)) = if q' = p then c.isOf k else 0 := by
  have hl := hcover.chain k
  by_cases hact : c.action? = some k
  · cases c with
    | ordinary => cases hact
    | passDownChain i g a =>
      obtain rfl := Option.some.inj hact
      obtain ⟨hi, hlt, hq'⟩ := hc
      change i < (chainOf a).length at hlt
      change (chainOf a)[i - 1]? = some q' at hq'
      show tally _ (passDownChain (chainOf a) i g a) = _
      rw [passDownChain_eq hi hlt, isOf_eq_one.mpr rfl]
      have hpush : (handing q a).op (.push (chainOf a)[i] g (if i + 1 = (chainOf a).length
          then .actionToRun a else .passDownChain (i + 1) g a))
            = if (chainOf a)[i] = q then 1 else 0 := by
        by_cases hlast : i + 1 = (chainOf a).length <;>
          simp [handing, Closure.isOf, Closure.action?, hlast]
      -- a queue is in its chain once, so `q` comes behind `p` and behind no other queue
      have hnext : (chainOf a)[i] = q ↔ q' = p := by
        rw [← List.getElem?_eq_some_iff.trans ⟨fun h => h.2, fun h => ⟨hlt, h⟩⟩]
        constructor
        · intro h
          have hij := index_unique hl h hq
          rw [show i - 1 = j by omega, hp] at hq'
          exact (Option.some.inj hq').symm
        · rintro rfl
          have hij := index_unique hl hq' hp
          rw [show i = j + 1 by omega]
          exact hq
      rw [tally_cons, tally_cons, tally_nil, hpush]
      simp only [hnext]
      exact Nat.zero_add _
    | actionToRun a =>
      obtain rfl := Option.some.inj hact
      -- the last queue of the chain hands on to nobody
      have hne : q' ≠ p := by
        rintro rfl
        exact getLast_ne hl hp hq hc
      rw [if_neg hne]
      refine tally_eq_zero.mpr fun op hop => ?_
      change op ∈ actionToRun (chainOf a) a at hop
      rcases List.mem_cons.mp hop with rfl | hop
      · rfl
      · rcases mem_sentryAction.mp hop with ⟨_, -, rfl⟩ | rfl <;> rfl
  · rw [isOf_of_ne hact, ite_self]
    refine tally_eq_zero.mpr fun op hop => ?_
    cases op with
    | push q₁ g₁ c₁ =>
      obtain ⟨i, g, a, rfl, hact₁, -⟩ := hop_of_push_mem_code hop
      -- the code of a functor pushes functors of the same action only
      have hne : c₁.action? ≠ some k := fun heq => hact (hact₁.symm.trans heq ▸ rfl)
      simp [handing, isOf_of_ne hne]
    | _ => rfl

omit [DecidableEq Q] in
/-- Only the loop begins a task. -/
lemma begun_of_not_loop {m : Queue Closure} {pt : Point Closure} {r : Result Closure}
    (h : pt.step m = some r) (hloop : ∀ g t, pt ≠ .loop g t) : r.queue.begun = m.begun := by
  cases operation h with
  | loop g t => exact absurd rfl (hloop g t)
  | _ => rfl

omit [DecidableEq Q] in
/-- What has begun stays so. -/
lemma begun_grows {m : Queue Closure} {pt : Point Closure} {r : Result Closure}
    (h : pt.step m = some r) : m.begun <+: r.queue.begun := by
  cases operation h with
  | loop g t => exact List.prefix_append _ _
  | _ => exact List.prefix_rfl

omit [DecidableEq Q] in
/-- Only a push pushes. -/
lemma pushed_of_not_push {m : Queue Closure} {pt : Point Closure} {r : Result Closure}
    (h : pt.step m = some r) (hpush : ∀ t, pt ≠ .push t) : r.queue.pushed = m.pushed := by
  cases operation h with
  | push t => exact absurd rfl (hpush t)
  | _ => rfl

/-- **What begins on a queue is pushed onto the next one**, or about to be. -/
theorem handing_eq_begun (hcover : Covers L chainOf) (h : ReachableThrough chainOf s)
    (hp : (chainOf k)[j]? = some p) (hq : (chainOf k)[j + 1]? = some q) :
    (handing q k).total [q] s = tally (fun t => t.action.isOf k) (s.base.queue p).begun := by
  refine h.invariant_of (J := ReachableThrough chainOf)
    (I := fun s => (handing q k).total [q] s
      = tally (fun t => t.action.isOf k) (s.base.queue p).begun) id ?_
    fun s a s' hs ih _ hstep => ?_
  · simp [Ledger.total, State.members, membersOf, handing]
  cases through_cases (bounded_through hs) hstep with
  | forked hmembers hqueue _ => rw [Ledger.total_forked hmembers hqueue, hqueue, ih]
  | pushed i g th sc hm huser hmembers hqueue _ =>
    -- the first queue of the chain is not `q`
    have hfirst : (chainOf k).head? ≠ some q := head_ne (hcover.chain k) hq
    rw [Ledger.total_pushed hm hmembers hqueue, hqueue, ih, handing_push hfirst, Nat.add_zero]
  | moved i m m' hm hlocal hmembers hqueue _ =>
    have hset := (handing q k).total_set [q] hm hmembers hqueue
    rw [Ledger.member_local hlocal pays_handing] at hset
    rw [hqueue]
    omega
  | advanced i th sc q' pt r _ hm hpt hr hmembers hqueue _ =>
    rcases pt.loop_or with ⟨g, t, rfl⟩ | hloop'
    · -- the functor that begins brings its code, which pushes onto `q` if it begins at `p`
      obtain ⟨rfl, hplaced⟩ := fits_of_loop ((fits hs).members _ (List.mem_of_getElem? hm)) hpt
      have htotal := (handing q k).total_loop (List.nodup_singleton q) hr hm hpt hmembers hqueue
        fun _ _ => rfl
      have hcode : tally (handing q k).op (nextScriptThrough chainOf [] (.loop g t))
          = if q' = p then t.action.isOf k else 0 := handing_code hcover hplaced hp hq
      have hpoint : (handing q k).point q' (.loop g t) = 0 := rfl
      have hexecute : (handing q k).point q' (.execute g t) = 0 := rfl
      obtain rfl := Option.some.inj hr
      rw [hqueue]
      by_cases hqp : q' = p
      · subst hqp
        rw [if_pos rfl] at hcode
        rw [Function.update_self, tally_append, tally_cons, tally_nil]
        omega
      · rw [if_neg hqp] at hcode
        rw [Function.update_of_ne (Ne.symm hqp)]
        omega
    · rw [nextScriptThrough_of_not_loop hloop'] at hmembers
      have htotal := (handing q k).total_advanced (List.nodup_singleton q) hm hpt hmembers hqueue
      have hmoved := handing_step (q := q) (k := k) q' hr
      have hbegun : (s'.base.queue p).begun = (s.base.queue p).begun := by
        rw [hqueue]
        by_cases hqp : p = q'
        · subst hqp
          rw [Function.update_self]
          exact begun_of_not_loop hr hloop'
        · rw [Function.update_of_ne hqp]
      rw [hbegun]
      omega

/-! ## Who passes an action on -/

/-- Who weighs something in `handing` is going to push the action. -/
lemma hands_of_handing {m : Member Q} (hjob : ∀ t, m.1.job ≠ some (q, .push t))
    (h : (handing q k).member m ≠ 0) : ∃ c, m.Hands q c ∧ c.action? = some k := by
  -- a point that weighs something is a push of the action onto `q`
  have hpush : ∀ o : Option (Q × Point Closure), (handing q k).at o ≠ 0 →
      ∃ t, o = some (q, .push t) ∧ t.action.action? = some k := by
    rintro (_ | ⟨q', pt⟩) ho
    · exact absurd rfl ho
    · cases pt with
      | push t =>
        by_cases hq : q' = q
        · subst hq
          refine ⟨t, rfl, ?_⟩
          by_contra hact
          exact ho ((if_pos rfl).trans (isOf_of_ne hact))
        · exact absurd (if_neg hq) ho
      | _ => exact absurd rfl ho
  -- the weight is that of a functor, of a call or of the script; functors do not push
  by_cases hat : (handing q k).at m.1.job = 0
  · by_cases hcall : (handing q k).at m.1.call = 0
    · have hop : tally (handing q k).op m.2 ≠ 0 := by
        unfold Ledger.member at h
        omega
      have hsome : ¬ ∀ op ∈ m.2, (handing q k).op op = 0 := fun hall => hop (tally_eq_zero.mpr hall)
      push Not at hsome
      obtain ⟨op, hmem, hne⟩ := hsome
      cases op with
      | push q' g c =>
        by_cases hq : q' = q
        · subst hq
          refine ⟨c, .inl ⟨g, hmem⟩, ?_⟩
          by_contra hact
          exact hne ((if_pos rfl).trans (isOf_of_ne hact))
        · exact absurd (if_neg hq) hne
      | _ => exact absurd rfl hne
    · obtain ⟨t, ht, hact⟩ := hpush _ hcall
      exact ⟨_, .inr ⟨t, ht, rfl⟩, hact⟩
  · obtain ⟨t, ht, -⟩ := hpush _ hat
    exact absurd ht (hjob t)

omit [DecidableEq Q] in
/-- Only the hop on the queue before passes an action on to `q`. -/
lemma hop_of_hands (hcover : Covers L chainOf) {m : Member Q} {c : Closure}
    (hfits : m.Fits chainOf) (hhands : m.Hands q c) (hact : c.action? = some k)
    (hp : (chainOf k)[j]? = some p) (hq : (chainOf k)[j + 1]? = some q) :
    ∃ g t g', m.1.job = some (p, .execute g t) ∧ t.action = .passDownChain (j + 1) g' k := by
  have hl := hcover.chain k
  rcases hfits.hands q c k hhands hact with hfirst | ⟨q', g, t, i, g', hjob, hhop, hi⟩
  · exact absurd hfirst (head_ne hl hq)
  · obtain rfl := index_unique hl hi hq
    have hplaced := hfits.placed q' _ (.inl hjob) t (by simp [Point.tasks])
    rw [hhop] at hplaced
    obtain ⟨-, -, hq'⟩ := hplaced
    rw [Nat.add_sub_cancel] at hq'
    obtain rfl := Option.some.inj (hp.symm.trans hq')
    exact ⟨g, t, g', hjob, hhop⟩

/-- A runner's own operations push nothing. -/
lemma job_ne_push (h : ReachableThrough chainOf s) {m : Member Q} (hm : m ∈ s.members)
    (t : QueuedTask Closure) : m.1.job ≠ some (q, .push t) := by
  intro hjob
  obtain ⟨i, hi⟩ := List.getElem?_of_mem hm
  have hth := List.mem_of_getElem? (thread_of_members hi).1
  cases (SerialTaskQueue.apart (reachable_base_through h)).jobs m.1 hth q _ hjob

/-- Who hands an action over bears it. -/
lemma handing_le_bearing (hmem : q ∈ L) (m : Member Q) :
    (handing q k).member m ≤ (bearing L k).member m := by
  have hat : ∀ o, (handing q k).at o ≤ (bearing L k).at o := by
    rintro (_ | ⟨q', pt⟩)
    · exact le_rfl
    · cases pt with
      | push t =>
        by_cases hq : q' = q
        · subst hq
          simp [handing, bearing, carried, hmem, Point.tasks]
        · simp [handing, hq]
      | _ => exact Nat.zero_le _
  have hop : ∀ op, (handing q k).op op ≤ (bearing L k).op op := by
    intro op
    cases op with
    | push q' g c =>
      by_cases hq : q' = q
      · subst hq
        simp [handing, bearing, carried, hmem]
      · simp [handing, hq]
    | _ => exact Nat.zero_le _
  exact Nat.add_le_add (Nat.add_le_add (hat _) (hat _)) (tally_le_tally fun op _ => hop op)

/-- Two threads that pass actions on to `q` are one, and it is about one action. -/
lemma hands_unique (hcover : Covers L chainOf) (h : ReachableThrough chainOf s)
    {i i' k' : ℕ} {m m' : Member Q} {c c' : Closure} (hm : s.members[i]? = some m)
    (hm' : s.members[i']? = some m') (hhands : m.Hands q c) (hhands' : m'.Hands q c')
    (hact : c.action? = some k) (hact' : c'.action? = some k') (hsame : chainOf k = chainOf k')
    (hp : (chainOf k)[j]? = some p) (hq : (chainOf k)[j + 1]? = some q) : k = k' := by
  obtain ⟨g, t, g₁, hjob, hhop⟩ :=
    hop_of_hands hcover ((fits h).members _ (List.mem_of_getElem? hm)) hhands hact hp hq
  obtain ⟨g', t', g₁', hjob', hhop'⟩ :=
    hop_of_hands hcover ((fits h).members _ (List.mem_of_getElem? hm')) hhands' hact'
      (hsame ▸ hp) (hsame ▸ hq)
  obtain rfl := SerialTaskQueue.runner_unique (reachable_base_through h) (thread_of_members hm).1
    (thread_of_members hm').1 hjob hjob' rfl rfl
  obtain rfl := Option.some.inj (hm.symm.trans hm')
  obtain ⟨-, heq⟩ := Prod.mk.inj (Option.some.inj (hjob.symm.trans hjob'))
  obtain ⟨-, rfl⟩ := Point.execute.inj heq
  cases hhop.symm.trans hhop'
  rfl

/-! ## The actions of a chain in a queue -/

/-- The actions of `A` that some tasks are about, in the order of the tasks. -/
def actionsIn (A : ℕ → Bool) (ts : List (QueuedTask Closure)) : List ℕ :=
  (ts.filterMap fun t => t.action.action?).filter A

omit [DecidableEq Q] in
@[simp] lemma actionsIn_append (ts ts' : List (QueuedTask Closure)) :
    actionsIn A (ts ++ ts') = actionsIn A ts ++ actionsIn A ts' := by
  simp [actionsIn]

omit [DecidableEq Q] in
/-- A longer record has more actions. -/
lemma prefix_actionsIn {ts ts' : List (QueuedTask Closure)} (h : ts <+: ts') :
    actionsIn A ts <+: actionsIn A ts' :=
  (h.filterMap _).filter _

omit [DecidableEq Q] in
lemma count_actionsIn (hk : A k = true) (ts : List (QueuedTask Closure)) :
    (actionsIn A ts).count k = tally (fun t => t.action.isOf k) ts := by
  induction ts with
  | nil => rfl
  | cons t ts ih =>
    have happ : actionsIn A (t :: ts) = actionsIn A [t] ++ actionsIn A ts :=
      actionsIn_append [t] ts
    rw [happ, List.count_append, ih, tally_cons]
    congr 1
    cases hact : t.action.action? with
    | none => simp [actionsIn, Closure.isOf, hact]
    | some a =>
      by_cases hak : a = k
      · subst hak
        simp [actionsIn, Closure.isOf, hact, hk]
      · by_cases hA : A a = true <;> simp [actionsIn, Closure.isOf, hact, hA, hak]

/-- What has begun on a queue and is not on the next one yet is what a thread is about to push. -/
lemma eq_singleton_of_hands (hcover : Covers L chainOf) (h : ReachableThrough chainOf s)
    (hA : ∀ a, A a = true → chainOf a = l) (hp : l[j]? = some p) (hq : l[j + 1]? = some q)
    {i : ℕ} {m : Member Q} (hm : s.members[i]? = some m) {t : QueuedTask Closure}
    (hcall : m.1.call = some (q, .push t)) (hact : t.action.action? = some k) (hk : A k = true)
    {R : List ℕ} (hbegun : actionsIn A (s.base.queue p).begun
      = actionsIn A (s.base.queue q).pushed ++ R) (hR : ∀ a ∈ R, A a = true) : R = [k] := by
  have hhands : m.Hands q t.action := .inr ⟨t, hcall, rfl⟩
  -- the ledger of each action, read at the rest of the list
  have hcount : ∀ a, A a = true → tally (handing q a).member s.members = R.count a := by
    intro a ha
    have hledger := handing_eq_begun hcover h ((hA a ha).symm ▸ hp) ((hA a ha).symm ▸ hq)
    have hsplit := congrArg (List.count a) hbegun
    rw [List.count_append, count_actionsIn ha, count_actionsIn ha] at hsplit
    simp only [Ledger.total, tally_cons, tally_nil, handing, if_true] at hledger
    simp only [handing] at hledger ⊢
    omega
  have hmem : q ∈ L := by
    have hsub := hcover.subset k
    rw [hA k hk] at hsub
    exact hsub (List.mem_of_getElem? hq)
  have hall : ∀ a ∈ R, a = k := by
    intro a ha
    have hpos : tally (handing q a).member s.members ≠ 0 := by
      rw [hcount a (hR a ha)]
      exact (List.count_pos_iff.mpr ha).ne'
    have hsome : ¬ ∀ m' ∈ s.members, (handing q a).member m' = 0 :=
      fun hzero => hpos (tally_eq_zero.mpr hzero)
    push Not at hsome
    obtain ⟨m', hm', hne⟩ := hsome
    obtain ⟨c, hhands', hact'⟩ := hands_of_handing (job_ne_push h hm') hne
    obtain ⟨i', hi'⟩ := List.getElem?_of_mem hm'
    have hsame : chainOf a = chainOf k := (hA a (hR a ha)).trans (hA k hk).symm
    exact hands_unique hcover h hi' hm hhands' hhands hact' hact hsame
      ((hA a (hR a ha)).symm ▸ hp) ((hA a (hR a ha)).symm ▸ hq)
  have hle : R.count k ≤ 1 := by
    have hbear := bearing_le_through hcover h k
    have hmono := tally_le_tally (l := s.members) fun m' _ => handing_le_bearing (k := k) hmem m'
    rw [hcount k hk] at hmono
    unfold Ledger.total at hbear
    split_ifs at hbear <;> omega
  have hge : 1 ≤ R.count k := by
    rw [← hcount k hk]
    refine le_trans ?_ (le_tally_of_mem (handing q k).member (List.mem_of_getElem? hm))
    have hat : (handing q k).at m.1.call = 1 := by
      rw [hcall]
      exact (if_pos rfl).trans (isOf_eq_one.mpr hact)
    unfold Ledger.member
    omega
  have hreplicate := List.eq_replicate_iff.mpr ⟨rfl, hall⟩
  have hlength : R.count k = R.length := by
    rw [List.count_eq_length]
    exact fun b hb => (hall b hb).symm
  rw [hreplicate, ← hlength, show R.count k = 1 by omega]
  rfl

/-- **Actions come to the next queue of a chain in the order in which their hops begin.** -/
theorem pushed_prefix_begun (hcover : Covers L chainOf) (h : ReachableThrough chainOf s)
    (hA : ∀ a, A a = true → chainOf a = l) (hp : l[j]? = some p) (hq : l[j + 1]? = some q) :
    actionsIn A (s.base.queue q).pushed <+: actionsIn A (s.base.queue p).begun := by
  refine h.invariant_of (J := ReachableThrough chainOf)
    (I := fun s => actionsIn A (s.base.queue q).pushed <+: actionsIn A (s.base.queue p).begun) id
    List.prefix_rfl fun s a s' hs ih _ hstep => ?_
  cases through_cases (bounded_through hs) hstep with
  | forked hmembers hqueue _ => rwa [hqueue]
  | pushed i g th sc hm huser hmembers hqueue _ => rwa [hqueue]
  | moved i m m' hm hlocal hmembers hqueue _ => rwa [hqueue]
  | advanced i th sc q' pt r _ hm hpt hr hmembers hqueue _ =>
    have hbegun : (s.base.queue p).begun <+: (s'.base.queue p).begun := by
      rw [hqueue]
      by_cases hqp : p = q'
      · subst hqp
        rw [Function.update_self]
        exact begun_grows hr
      · rw [Function.update_of_ne hqp]
    -- only a push at `q` adds to the left side, and the right side only grows
    by_cases hpush : q' = q ∧ ∃ t, pt = .push t
    · obtain ⟨rfl, t, rfl⟩ := hpush
      have hmem := List.mem_of_getElem? hm
      have hcall : th.call = some (q', .push t) :=
        (SerialTaskQueue.Thread.next?_eq hpt).resolve_left (job_ne_push hs hmem t)
      have hpushed : (s'.base.queue q').pushed = (s.base.queue q').pushed ++ [t] := by
        obtain rfl := Option.some.inj hr
        rw [hqueue, Function.update_self]
      rw [hpushed, actionsIn_append]
      refine List.IsPrefix.trans ?_ (prefix_actionsIn hbegun)
      obtain ⟨R, hR⟩ := ih
      -- the action that is pushed has begun at `p` and is the only one that is not at `q` yet
      by_cases hin : ∃ k, t.action.action? = some k ∧ A k = true
      · obtain ⟨k, hact, hk⟩ := hin
        have hRA : ∀ a ∈ R, A a = true := by
          intro a ha
          have hmem' : a ∈ actionsIn A (s.base.queue p).begun := by
            rw [← hR]
            exact List.mem_append_right _ ha
          exact (List.mem_filter.mp hmem').2
        obtain rfl := eq_singleton_of_hands hcover hs hA hp hq hm hcall hact hk hR.symm hRA
        have hone : actionsIn A [t] = [k] := by simp [actionsIn, hact, hk]
        rw [hone, hR]
      · have hnone : actionsIn A [t] = [] := by
          cases hact : t.action.action? with
          | none => simp [actionsIn, hact]
          | some k =>
            have hk : A k ≠ true := fun hk => hin ⟨k, hact, hk⟩
            simp [actionsIn, hact, hk]
        rw [hnone, List.append_nil]
        exact ⟨R, hR⟩
    · have hpushed : (s'.base.queue q).pushed = (s.base.queue q).pushed := by
        rw [hqueue]
        by_cases hqq : q = q'
        · subst hqq
          rw [Function.update_self]
          exact pushed_of_not_push hr fun t heq => hpush ⟨rfl, t, heq⟩
        · rw [Function.update_of_ne hqq]
      rw [hpushed]
      exact ih.trans (prefix_actionsIn hbegun)

/-! ## From the first queue to the last -/

/-- Tasks begin in the order in which they were pushed. -/
lemma begun_prefix_pushed (h : ReachableThrough chainOf s) (q : Q) :
    (s.base.queue q).begun <+: (s.base.queue q).pushed := by
  have hbase := reachable_base_through h
  have hfifo : (s.base.queue q).popped ++ (s.base.queue q).tasks = (s.base.queue q).pushed :=
    SerialTaskQueue.fifo hbase q
  rw [← hfifo]
  exact (SerialTaskQueue.inOrder hbase q).begun_popped.trans (List.prefix_append _ _)

/-- **The actions of a chain begin on each of its queues in the order in which they entered the
first one.** -/
theorem begun_prefix_entered (hcover : Covers L chainOf) (h : ReachableThrough chainOf s)
    (hA : ∀ a, A a = true → chainOf a = l) (hfirst : l[0]? = some p) (hq : l[j]? = some q) :
    actionsIn A (s.base.queue q).begun <+: actionsIn A (s.base.queue p).pushed := by
  induction j generalizing q with
  | zero =>
    obtain rfl := Option.some.inj (hfirst.symm.trans hq)
    exact prefix_actionsIn (begun_prefix_pushed h _)
  | succ j ih =>
    have hlt := (List.getElem?_eq_some_iff.mp hq).1
    have hprev : l[j]? = some l[j] := List.getElem?_eq_getElem (by omega)
    calc actionsIn A (s.base.queue q).begun
        <+: actionsIn A (s.base.queue q).pushed := prefix_actionsIn (begun_prefix_pushed h q)
      _ <+: actionsIn A (s.base.queue l[j]).begun := pushed_prefix_begun hcover h hA hprev hq
      _ <+: actionsIn A (s.base.queue p).pushed := ih hprev

end UnifyPrototype.SerialTaskQueueChain
