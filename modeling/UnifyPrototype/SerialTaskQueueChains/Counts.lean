import Mathlib.Data.Fintype.Basic
import UnifyPrototype.SerialTaskQueueChains.Model

/-!
# How often an action runs, and what `m_outstandingTasks` counts

An action that was handed to its chain is in a functor, or is executing, or has run. The counter of a
chain is the number of its functors and of the sentries that have not come to their end.
-/

namespace UnifyPrototype.SerialTaskQueueChains

open UnifyPrototype.Utils
open SerialTaskQueue (QueuedTask Point Thread Result)
open SerialTaskQueueChain (Closure Op Label Member Ledger stepThrough ReachableThrough LabelCase
  Covers borne)

variable {C Q : Type} [DecidableEq C] [LinearOrder Q] {chains : C → Chain Q} {through : ℕ → C}
  {s s' : State C Q} {a : Label Q} {L : List Q} {k : ℕ}

/-! ## The program -/

/-- A step is one of the program, with its counter and its record. -/
lemma step_eq (h : step chains through s a = some s') :
    stepThrough (chainOf chains through) s.program a = some s'.program ∧
      s'.outstandingTasks = s.counts through a ∧ s'.ran = s.ran ++ (s.over? a).toList := by
  obtain ⟨program, hprogram, rfl⟩ := Option.map_eq_some_iff.mp h
  exact ⟨hprogram, rfl, rfl⟩

/-- What holds of the program with the queues of all chains holds here. -/
theorem reachable_program (h : Reachable chains through s) :
    ReachableThrough (chainOf chains through) s.program := by
  refine h.simulate (f := State.program) fun s a s' _ hstep => ?_
  exact .tail .refl trivial (step_eq hstep).1

variable (chains through) in
omit [DecidableEq C] in
lemma chainOf_ne (a : ℕ) : chainOf chains through a ≠ [] :=
  (chains (through a)).nonempty

lemma Chain.nodup (c : Chain Q) : c.m_queues.Nodup :=
  c.ordered.imp fun h => h.ne

variable (chains through) in
omit [DecidableEq C] in
/-- Finitely many chains have finitely many queues. -/
lemma exists_covers [Fintype C] (q : Q) : ∃ L, q ∈ L ∧ Covers L (chainOf chains through) := by
  refine ⟨(q :: Finset.univ.toList.flatMap fun c => (chains c).m_queues).dedup, by simp,
    List.nodup_dedup _, fun a => (chains (through a)).nodup, fun a q' hq' => ?_⟩
  simp only [List.mem_dedup, List.mem_cons, List.mem_flatMap, Finset.mem_toList, Finset.mem_univ,
    true_and]
  exact .inr ⟨through a, hq'⟩

/-! ## An action runs once -/

/-- Whether the operation is the user's functor. -/
def isAction : Op Q → ℕ
  | .iAction => 1
  | _ => 0

/-- Whether the thread executes the action `k`, and the user's functor is not over. -/
def runs (k : ℕ) (m : Member Q) : ℕ :=
  if running? m.1 = some k then tally isAction m.2 else 0

omit [LinearOrder Q] in
/-- A push has no action of its own. -/
lemma isAction_push (m_queues : List Q) (g a : ℕ) :
    tally isAction (SerialTaskQueueChain.push m_queues g a) = 0 := by
  rcases m_queues with _ | ⟨q₀, _ | ⟨q₁, qs⟩⟩ <;> rfl

omit [LinearOrder Q] in
/-- The last hop has one action. -/
lemma isAction_actionToRun (m_queues : List Q) (a : ℕ) :
    tally isAction (SerialTaskQueueChain.actionToRun m_queues a) = 1 := by
  have hsentry : tally isAction (SerialTaskQueueChain.sentryAction m_queues a) = 0 := by
    refine tally_eq_zero.mpr fun op hop => ?_
    rcases SerialTaskQueueChain.mem_sentryAction.mp hop with ⟨q, -, rfl⟩ | rfl <;> rfl
  rw [SerialTaskQueueChain.actionToRun, tally_cons, hsentry]
  rfl

omit [LinearOrder Q] in
lemma runs_of_job {m : Member Q} (h : ∀ q g t, m.1.job ≠ some (q, .execute g t)) : runs k m = 0 := by
  refine if_neg ?_
  unfold running?
  split
  next q g t hjob => exact absurd hjob (h q g t)
  next => simp

omit [LinearOrder Q] in
/-- A thread that makes an operation at a queue begins no action, unless it begins a task. -/
lemma runs_goto {th : Thread Q Closure} {sc : List (Op Q)} {q : Q} {pt : Point Closure}
    {m : SerialTaskQueue.Queue Closure} {r : Result Closure} (hpt : th.next? = some (q, pt))
    (hr : pt.step m = some r) (hloop : ∀ g t, pt ≠ .loop g t) :
    runs k (th.goto (r.next.map (q, ·)), sc) = runs k (th, sc) := by
  rcases th with ⟨job, _ | c⟩
  · obtain rfl : job = some (q, pt) := hpt
    have hbefore : runs k ((⟨some (q, pt), none⟩, sc) : Member Q) = 0 := by
      refine runs_of_job fun q' g t hjob => ?_
      obtain ⟨-, rfl⟩ := Prod.mk.inj (Option.some.inj hjob)
      cases hr
    have hafter : runs k ((⟨r.next.map (q, ·), none⟩, sc) : Member Q) = 0 := by
      refine runs_of_job fun q' g t hjob => ?_
      obtain ⟨n, hn, heq⟩ := Option.map_eq_some_iff.mp hjob
      obtain ⟨-, rfl⟩ := Prod.mk.inj heq
      have hpoint : .execute g t ∈ r.points := by simp [Result.points, hn]
      exact hloop g t (SerialTaskQueue.eq_loop_of_execute hr hpoint)
    exact hafter.trans hbefore.symm
  · rfl

omit [LinearOrder Q] in
/-- The thread that begins to execute a task. -/
lemma runs_loop {g : ℕ} {q : Q} {t : QueuedTask Closure} (through : ℕ → List Q) :
    runs k ((⟨some (q, .execute g t), none⟩,
        SerialTaskQueueChain.nextScriptThrough through [] (.loop g t)) : Member Q)
      = if runs? t.action = some k then 1 else 0 := by
  show (if runs? t.action = some k then tally isAction (t.action.code _) else 0) = _
  split
  next hact =>
    cases haction : t.action with
    | actionToRun b => exact isAction_actionToRun _ _
    | _ => rw [haction] at hact; cases hact
  next => rfl

/-- The functors of the action `k`. -/
abbrev functors (L : List Q) (k : ℕ) : Ledger Q :=
  borne L (fun b => b == k) fun _ => 0

omit [DecidableEq C] [LinearOrder Q] in
lemma over?_of_ne (h : ∀ i threw, a ≠ .actionEnds i threw) : (s.over? a).toList = [] := by
  cases a with
  | actionEnds i threw => exact absurd rfl (h i threw)
  | _ => rfl

omit [LinearOrder Q] in
/-- A step that leaves the weight of the member that moves leaves the tally. -/
lemma tally_set_eq {w : Member Q → ℕ} {l l' : List (Member Q)} {i : ℕ} {m m' : Member Q}
    (hm : l[i]? = some m) (hmembers : l' = l.set i m') (hsame : w m' = w m) :
    tally w l' = tally w l := by
  have hset := tally_set w m' hm
  rw [hmembers]
  omega

omit [DecidableEq C] [LinearOrder Q] in
/-- The action that is over was executing. -/
lemma count_over? {i : ℕ} (threw : Bool) {th : Thread Q Closure} {sc : List (Op Q)}
    (hm : s.program.members[i]? = some (th, .iAction :: sc)) :
    runs k (th, .iAction :: sc)
      = runs k (th, sc) + (s.over? (.actionEnds i threw)).toList.count k := by
  have hover : s.over? (.actionEnds i threw) = running? th := by
    simp only [State.over?, (SerialTaskQueueChain.thread_of_members hm).1, Option.bind_some]
  rw [hover]
  cases hrunning : running? th with
  | none => simp [runs, hrunning]
  | some b =>
    by_cases hbk : b = k
    · simp [runs, hrunning, hbk, isAction, Nat.add_comm]
    · simp [runs, hrunning, hbk]

/-- **Every action that was pushed is in one functor, or executes, or has run.** -/
theorem functors_add_ran (hcover : Covers L (chainOf chains through))
    (h : Reachable chains through s) (k : ℕ) :
    (functors L k).total L s.program + tally (runs k) s.program.members + s.ran.count k
      = if k < s.program.nextAction then 1 else 0 := by
  refine h.invariant_of (J := Reachable chains through)
    (I := fun s => (functors L k).total L s.program + tally (runs k) s.program.members
      + s.ran.count k = if k < s.program.nextAction then 1 else 0) id ?_
    fun s a s' hs ih _ hstep => ?_
  · simp [Ledger.total, SerialTaskQueueChain.State.members, SerialTaskQueueChain.membersOf,
      SerialTaskQueueChain.borne, SerialTaskQueueChain.carried]
  obtain ⟨hprogram, -, hran⟩ := step_eq hstep
  have hp := reachable_program hs
  cases SerialTaskQueueChain.label_cases (SerialTaskQueueChain.bounded_through hp) hprogram with
  | fork hmembers hqueue hnext =>
    rw [hran, over?_of_ne (by simp), hnext, Ledger.total_forked hmembers hqueue, hmembers]
    simpa [runs] using ih
  | @push i g th sc hm huser hmembers hqueue hnext =>
    -- the action that is pushed gets the next number and is in one functor
    have hruns := tally_set_eq (w := runs k) hm hmembers
      (by simp only [runs, tally_append, isAction_push, Nat.zero_add])
    have hpush : tally (functors L k).op (SerialTaskQueueChain.push
        (chainOf chains through s.program.nextAction) g s.program.nextAction)
          = if s.program.nextAction = k then 1 else 0 := by
      rw [SerialTaskQueueChain.borne_push hcover]
      simp [chainOf_ne]
    rw [hran, over?_of_ne (by simp), List.append_nil, hnext, hruns,
      Ledger.total_pushed hm hmembers hqueue, hpush]
    split_ifs at * <;> omega
  | pushOrdinary hm huser hmembers hqueue hnext =>
    rw [hran, over?_of_ne (by simp), List.append_nil, hnext,
      tally_set_eq (w := runs k) hm hmembers rfl,
      SerialTaskQueueChain.total_borne_pushOrdinary hm huser hmembers hqueue]
    exact ih
  | @proceed i th op sc hm hcall huser hop hmembers hqueue hnext =>
    -- only `iAction` runs an action, and it is no operation that proceeds
    have hzero : isAction op = 0 := by
      cases op with
      | iAction => exact absurd rfl hop
      | _ => rfl
    have hruns : tally (runs k) s'.program.members = tally (runs k) s.program.members := by
      refine tally_set_eq hm hmembers ?_
      show (if running? th = some k then tally isAction sc else 0)
        = if running? th = some k then tally isAction (op :: sc) else 0
      rw [tally_cons, hzero, Nat.zero_add]
    have hlast : op.last (fun _ => 0) = 0 := by cases op <;> rfl
    have hfunctors : (functors L k).total L s'.program + op.last (fun _ => 0)
        = (functors L k).total L s.program :=
      SerialTaskQueueChain.total_borne_proceed hm hcall hmembers hqueue
    rw [hran, over?_of_ne (by simp), List.append_nil, hnext, hruns]
    omega
  | @actionEnds i threw th sc hm hcall huser hmembers hqueue hnext =>
    have hruns := tally_set (runs k) (th, sc) hm
    -- the thread gives up the action that has run
    have hover := count_over? (k := k) threw hm
    have hfunctors : (functors L k).total L s'.program = (functors L k).total L s.program :=
      SerialTaskQueueChain.total_borne_actionEnds hm hmembers hqueue
    rw [hran, List.count_append, hnext, hmembers]
    omega
  | @advance i th sc q' pt r hm hpt hr hmembers hqueue hnext =>
    rw [hran, over?_of_ne (by simp), List.append_nil, hnext, ← ih]
    have hspawned : tally (runs k) (r.spawned.toList.map fun t =>
        ((⟨some (q', .waiting t), none⟩, []) : Member Q)) = 0 := by
      cases r.spawned <;> simp [runs, running?]
    have hruns : tally (runs k) s'.program.members
        + runs k (th, sc) = tally (runs k) s.program.members
        + runs k (th.goto (r.next.map (q', ·)),
          SerialTaskQueueChain.nextScriptThrough (chainOf chains through) sc pt) := by
      have hset := tally_set (runs k) (th.goto (r.next.map (q', ·)),
          SerialTaskQueueChain.nextScriptThrough (chainOf chains through) sc pt) hm
      rw [hmembers, tally_append, hspawned]
      exact hset
    have hfits := (SerialTaskQueueChain.fits hp).members _ (List.mem_of_getElem? hm)
    unfold functors
    rcases SerialTaskQueueChain.borne_advance (A := fun b => b == k) (e := fun _ => 0) hcover hfits hr
      hm hpt hmembers hqueue with ⟨g, t, rfl, rfl, rfl, hfunctors⟩ | ⟨hloop, hfunctors⟩
    · -- the functor that is taken up either runs the action or hands it on
      have hbegins : t.action.isIn (fun b => b == k)
          = t.action.leaves (fun b => b == k) (fun _ => 0)
            + if runs? t.action = some k then 1 else 0 := by
        cases t.action <;>
          simp [Closure.isIn, Closure.leaves, SerialTaskQueueChain.Closure.action?, runs?]
      obtain rfl := Option.some.inj hr
      have hbefore : runs k ((⟨some (q', .loop g t), none⟩, []) : Member Q) = 0 :=
        runs_of_job (by simp)
      have hafter := runs_loop (k := k) (g := g) (q := q') (t := t) (chainOf chains through)
      change tally (runs k) s'.program.members + runs k (⟨some (q', .loop g t), none⟩, [])
        = tally (runs k) s.program.members + runs k (⟨some (q', .execute g t), none⟩, _) at hruns
      omega
    · rw [SerialTaskQueueChain.nextScriptThrough_of_not_loop hloop, runs_goto hpt hr hloop] at hruns
      omega
  | @finish i threw q g t hm hmembers hqueue hnext =>
    have hruns := tally_set_eq (w := runs k) hm hmembers (by simp [runs])
    rw [hran, over?_of_ne (by simp), List.append_nil, hnext, hruns,
      SerialTaskQueueChain.total_borne_finish hm hmembers hqueue]
    exact ih

/-! ## The counters -/

/-- The actions of the chain `c`. -/
abbrev isOn (through : ℕ → C) (c : C) (a : ℕ) : Bool :=
  decide (through a = c)

/-- The functors of the chain `c` and the decrements of its sentries. -/
abbrev outstanding (L : List Q) (through : ℕ → C) (c : C) : Ledger Q :=
  borne L (isOn through c) fun a => if through a = c then 1 else 0

/-- Whether the next operation counts a call of `push` on the chain `c`. -/
def awaits (through : ℕ → C) (c : C) (m : Member Q) : ℕ :=
  match m.2 with
  | .increment :: .push _ _ c' :: _ => c'.isIn (isOn through c)
  | _ => 0

/-- Whether the next operation is a decrement for the chain `c`. -/
def ending (through : ℕ → C) (c : C) (m : Member Q) : ℕ :=
  match m.2 with
  | .decrement a :: _ => if through a = c then 1 else 0
  | _ => 0

omit [LinearOrder Q] in
lemma awaits_of_notMem {c : C} {th : Thread Q Closure} {sc : List (Op Q)}
    (h : Op.increment ∉ sc) : awaits through c (th, sc) = 0 := by
  unfold awaits
  split
  next q g c' rest heq =>
    obtain rfl : sc = _ := heq
    exact absurd (by simp) h
  next => rfl

omit [LinearOrder Q] in
/-- A call of `push` is never counted by a task that has just begun to execute. -/
lemma awaits_advance {chainOf : ℕ → List Q} (c : C) {th : Thread Q Closure} {sc : List (Op Q)}
    {q : Q} {pt : Point Closure} (hfits : SerialTaskQueueChain.Member.Fits chainOf (th, sc))
    (hpt : th.next? = some (q, pt)) (th' : Thread Q Closure) :
    awaits through c (th', SerialTaskQueueChain.nextScriptThrough chainOf sc pt)
      = awaits through c (th, sc) := by
  rcases pt.loop_or with ⟨g, t, rfl⟩ | hloop
  · obtain ⟨rfl, -⟩ := SerialTaskQueueChain.fits_of_loop hfits hpt
    exact awaits_of_notMem SerialTaskQueueChain.not_increment_mem_code
  · rw [SerialTaskQueueChain.nextScriptThrough_of_not_loop hloop]
    rfl

/-- A decrement is not the last thing that its chain counts before it is made. -/
lemma awaits_add_ending_le (hcover : Covers L (chainOf chains through)) (c : C) {m : Member Q}
    (hfits : m.Fits (chainOf chains through)) :
    awaits through c m + ending through c m ≤ (outstanding L through c).member m := by
  obtain ⟨th, sc⟩ := m
  -- the script begins with an increment, with a decrement, or counts for neither
  have hscript : ∀ op rest, sc = op :: rest →
      (outstanding L through c).op op + tally (outstanding L through c).op rest
        ≤ (outstanding L through c).member (th, sc) := by
    rintro op rest rfl
    simp only [Ledger.member, tally_cons]
    omega
  by_cases hincrement : ∃ q g c' rest, sc = .increment :: .push q g c' :: rest
  · obtain ⟨q, g, c', rest, rfl⟩ := hincrement
    have hle := hscript _ _ rfl
    have hplaced := hfits.toPush q g c' (by simp)
    have hpush : c'.isIn (isOn through c) ≤ (outstanding L through c).op (.push q g c') := by
      rcases hcover.mem_of_placed hplaced with rfl | hmem
      · exact Nat.zero_le _
      · simp [SerialTaskQueueChain.borne, SerialTaskQueueChain.carried, hmem]
    have hending : ending through c ((th, .increment :: .push q g c' :: rest) : Member Q) = 0 := rfl
    have hawaits : awaits through c ((th, .increment :: .push q g c' :: rest) : Member Q)
        = c'.isIn (isOn through c) := rfl
    rw [tally_cons] at hle
    omega
  · have hawaits : awaits through c (th, sc) = 0 := by
      unfold awaits
      split
      next q g c' rest heq => exact absurd ⟨q, g, c', rest, heq⟩ hincrement
      next => rfl
    by_cases hdecrement : ∃ a rest, sc = .decrement a :: rest
    · obtain ⟨a, rest, rfl⟩ := hdecrement
      have hle := hscript _ _ rfl
      have hending : ending through c ((th, .decrement a :: rest) : Member Q)
          = (outstanding L through c).op (.decrement a) := rfl
      omega
    · have hending : ending through c (th, sc) = 0 := by
        unfold ending
        split
        next a rest heq => exact absurd ⟨a, rest, heq⟩ hdecrement
        next => rfl
      omega

omit [LinearOrder Q] in
/-- Only a step of a script counts. -/
lemma counts_of_ne (h : ∀ i, a ≠ .proceed i) : s.counts through a = s.outstandingTasks := by
  cases a with
  | proceed i => exact absurd rfl (h i)
  | _ => rfl

omit [LinearOrder Q] in
/-- A counter moves when a thread increments or decrements it. -/
lemma counts_proceed {i : ℕ} {op : Op Q} {sc : List (Op Q)} (c : C)
    (hscript : s.program.script i = op :: sc) :
    s.counts through (.proceed i) c = match counted? (op :: sc) with
      | some a => if through a = c then op.count (s.outstandingTasks c) else s.outstandingTasks c
      | none => s.outstandingTasks c := by
  simp only [State.counts, hscript]
  cases hcounted : counted? (op :: sc) with
  | none => rfl
  | some a =>
    simp only
    by_cases hc : through a = c
    · subst hc
      rw [Function.update_self, if_pos rfl]
    · rw [Function.update_of_ne (Ne.symm hc), if_neg hc]

omit [LinearOrder Q] in
/-- A call of `push` counts its action first. -/
lemma awaits_push (through : ℕ → C) (c : C) {m_queues : List Q}
    (hne : m_queues ≠ []) (g b : ℕ) (th : Thread Q Closure) (sc : List (Op Q)) :
    awaits through c (th, SerialTaskQueueChain.push m_queues g b ++ sc)
      = if through b = c then 1 else 0 := by
  rcases m_queues with _ | ⟨q₀, _ | ⟨q₁, qs⟩⟩
  · exact absurd rfl hne
  · simp [SerialTaskQueueChain.push, awaits, Closure.isIn, SerialTaskQueueChain.Closure.action?]
  · simp [SerialTaskQueueChain.push, awaits, Closure.isIn, SerialTaskQueueChain.Closure.action?]

omit [LinearOrder Q] in
/-- **The next operation of a chain's code and the counter of the chain.** -/
lemma outstanding_proceed {i : ℕ} {op : Op Q} {sc : List (Op Q)} {th : Thread Q Closure} (c : C)
    (th' : Thread Q Closure)
    (hscript : s.program.script i = op :: sc) (hincrement : Op.increment ∉ sc)
    (hpos : ending through c (th, op :: sc) ≤ s.outstandingTasks c) :
    s.counts through (.proceed i) c + awaits through c (th', sc)
        + op.last (fun a => if through a = c then 1 else 0)
      = s.outstandingTasks c + awaits through c (th, op :: sc) := by
  rw [counts_proceed c hscript, awaits_of_notMem hincrement]
  cases op with
  | increment =>
    -- an increment counts for the action of the push behind it
    by_cases hpush : ∃ q g c' rest, sc = .push q g c' :: rest
    · obtain ⟨q, g, c', rest, rfl⟩ := hpush
      have hawaits : awaits through c ((th, .increment :: .push q g c' :: rest) : Member Q)
          = c'.isIn (isOn through c) := rfl
      rw [hawaits]
      cases hact : c'.action? with
      | none => simp [counted?, hact, Closure.isIn, Op.last]
      | some a =>
        by_cases hc : through a = c <;>
          simp [counted?, hact, Closure.isIn, Op.last, SerialTaskQueueChain.Op.count, hc]
    · have hcounted : counted? (.increment :: sc) = none := by
        unfold counted?
        split
        next q g c' rest heq => exact absurd ⟨q, g, c', rest, (List.cons.inj heq).2⟩ hpush
        next a rest heq => cases heq
        next => rfl
      have hawaits : awaits through c ((th, .increment :: sc) : Member Q) = 0 := by
        unfold awaits
        split
        next q g c' rest heq => exact absurd ⟨q, g, c', rest, (List.cons.inj heq).2⟩ hpush
        next => rfl
      rw [hcounted, hawaits]
      rfl
  | decrement a =>
    have hawaits : awaits through c ((th, .decrement a :: sc) : Member Q) = 0 := rfl
    have hending : ending through c ((th, .decrement a :: sc) : Member Q)
        = if through a = c then 1 else 0 := rfl
    rw [hending] at hpos
    rw [hawaits]
    by_cases hc : through a = c
    · rw [if_pos hc] at hpos
      simp only [counted?, SerialTaskQueueChain.Op.count, Op.last, if_pos hc]
      exact Nat.sub_add_cancel hpos
    · simp [counted?, Op.last, hc]
  | _ => rfl

/-- **What `m_outstandingTasks` counts.** -/
theorem outstanding_eq (hcover : Covers L (chainOf chains through))
    (h : Reachable chains through s) (c : C) :
    (outstanding L through c).total L s.program
      = s.outstandingTasks c + tally (awaits through c) s.program.members := by
  refine h.invariant_of (J := Reachable chains through)
    (I := fun s => (outstanding L through c).total L s.program
      = s.outstandingTasks c + tally (awaits through c) s.program.members) id ?_
    fun s a s' hs ih _ hstep => ?_
  · simp [Ledger.total, SerialTaskQueueChain.State.members, SerialTaskQueueChain.membersOf,
      SerialTaskQueueChain.borne, SerialTaskQueueChain.carried]
  obtain ⟨hprogram, hcounts, -⟩ := step_eq hstep
  have hp := reachable_program hs
  cases SerialTaskQueueChain.label_cases (SerialTaskQueueChain.bounded_through hp) hprogram with
  | fork hmembers hqueue hnext =>
    rw [hcounts, counts_of_ne (by simp), Ledger.total_forked hmembers hqueue, hmembers]
    simpa [awaits] using ih
  | @push i g th sc hm huser hmembers hqueue hnext =>
    have hbefore : awaits through c (th, sc) = 0 := by
      rcases SerialTaskQueueChain.script_of_inUserCode huser with rfl | ⟨rest, rfl⟩ <;> rfl
    have hafter := awaits_push through c (chainOf_ne chains through s.program.nextAction) g
      s.program.nextAction th sc
    have hset := tally_set (awaits through c) (th, SerialTaskQueueChain.push
      (chainOf chains through s.program.nextAction) g s.program.nextAction ++ sc) hm
    have hpush : tally (outstanding L through c).op (SerialTaskQueueChain.push
        (chainOf chains through s.program.nextAction) g s.program.nextAction)
          = if through s.program.nextAction = c then 1 else 0 := by
      rw [SerialTaskQueueChain.borne_push hcover]
      simp [chainOf_ne]
    rw [hcounts, counts_of_ne (by simp), Ledger.total_pushed hm hmembers hqueue, hpush, hmembers]
    omega
  | pushOrdinary hm huser hmembers hqueue hnext =>
    rw [hcounts, counts_of_ne (by simp), tally_set_eq (w := awaits through c) hm hmembers rfl,
      SerialTaskQueueChain.total_borne_pushOrdinary hm huser hmembers hqueue]
    exact ih
  | @proceed i th op sc hm hcall huser hop hmembers hqueue hnext =>
    have hfits := (SerialTaskQueueChain.fits hp).members _ (List.mem_of_getElem? hm)
    -- the counter is not zero when it is decremented: an action is still under way
    have hpos : ending through c (th, op :: sc) ≤ s.outstandingTasks c := by
      have hle := tally_le_tally (v := (outstanding L through c).member) fun m hm' =>
        awaits_add_ending_le hcover c ((SerialTaskQueueChain.fits hp).members m hm')
      have hending := le_tally_of_mem (ending through c) (List.mem_of_getElem? hm)
      rw [tally_add] at hle
      unfold Ledger.total at ih
      omega
    have hmoved := outstanding_proceed c
      { th with call := op.call?.map fun c => (c.1, c.2.entry s.program.base.nextId) }
      (SerialTaskQueueChain.thread_of_members hm).2 hfits.increment hpos
    have hset := tally_set (awaits through c)
      ({ th with call := op.call?.map fun c => (c.1, c.2.entry s.program.base.nextId) }, sc) hm
    have htotal : (outstanding L through c).total L s'.program
        + op.last (fun a => if through a = c then 1 else 0)
          = (outstanding L through c).total L s.program :=
      SerialTaskQueueChain.total_borne_proceed hm hcall hmembers hqueue
    rw [hcounts, hmembers]
    omega
  | @actionEnds i threw th sc hm hcall huser hmembers hqueue hnext =>
    have hfits := (SerialTaskQueueChain.fits hp).members _ (List.mem_of_getElem? hm)
    have hawaits := tally_set_eq (w := awaits through c) hm hmembers
      (awaits_of_notMem hfits.increment)
    rw [hcounts, counts_of_ne (by simp), hawaits,
      SerialTaskQueueChain.total_borne_actionEnds hm hmembers hqueue]
    exact ih
  | @advance i th sc q' pt r hm hpt hr hmembers hqueue hnext =>
    have hspawned : tally (awaits through c) (r.spawned.toList.map fun t =>
        ((⟨some (q', .waiting t), none⟩, []) : Member Q)) = 0 := by
      cases r.spawned <;> simp [awaits]
    have hset := tally_set (awaits through c) (th.goto (r.next.map (q', ·)),
      SerialTaskQueueChain.nextScriptThrough (chainOf chains through) sc pt) hm
    rw [hcounts, counts_of_ne (by simp)]
    have hfits := (SerialTaskQueueChain.fits hp).members _ (List.mem_of_getElem? hm)
    have htotal : (outstanding L through c).total L s'.program
        = (outstanding L through c).total L s.program :=
      SerialTaskQueueChain.total_borne_advance hcover (fun a => by simp) hfits hr hm hpt hmembers
        hqueue
    have hsame : awaits through c (th.goto (r.next.map (q', ·)),
        SerialTaskQueueChain.nextScriptThrough (chainOf chains through) sc pt)
          = awaits through c (th, sc) := awaits_advance c hfits hpt _
    rw [hmembers, tally_append, hspawned]
    omega
  | finish hm hmembers hqueue hnext =>
    rw [hcounts, counts_of_ne (by simp), tally_set_eq (w := awaits through c) hm hmembers rfl,
      SerialTaskQueueChain.total_borne_finish hm hmembers hqueue]
    exact ih

end UnifyPrototype.SerialTaskQueueChains
