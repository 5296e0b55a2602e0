import UnifyPrototype.SerialTaskQueueChain.Family

/-!
# What a step does to the threads of a chain

A member is a thread together with what is left of its chain code. `label_cases` says once how the
step with each label changes the members and the queues, `through_cases` the same where only the kind
of the step matters.
-/

namespace UnifyPrototype.SerialTaskQueueChain

open UnifyPrototype.Utils
open SerialTaskQueue (QueuedTask Queue Point Thread Result)

variable {Q : Type} [DecidableEq Q] {m_queues : List Q} {s s' : State Q} {a : Label Q}

/-- A thread and what is left of its chain code. -/
abbrev Member (Q : Type) :=
  Thread Q Closure × List (Op Q)

/-- The members that a list of threads and their scripts make up. -/
def membersOf (threads : List (Thread Q Closure)) (script : ℕ → List (Op Q)) : List (Member Q) :=
  threads.mapIdx fun i th => (th, script i)

/-- All threads with their scripts. -/
def State.members (s : State Q) : List (Member Q) :=
  membersOf s.base.threads s.script

omit [DecidableEq Q] in
lemma getElem?_members (s : State Q) (i : ℕ) :
    s.members[i]? = (s.base.threads[i]?).map fun th => (th, s.script i) := by
  simp [State.members, membersOf]

omit [DecidableEq Q] in
lemma membersOf_set (threads : List (Thread Q Closure)) (script : ℕ → List (Op Q)) (i : ℕ)
    (th : Thread Q Closure) (sc : List (Op Q)) :
    membersOf (threads.set i th) (Function.update script i sc)
      = (membersOf threads script).set i (th, sc) := by
  apply List.ext_getElem?
  intro j
  by_cases hij : i = j
  · subst hij
    by_cases hlt : i < threads.length <;> simp [membersOf, hlt]
  · simp [membersOf, hij, Function.update_of_ne (Ne.symm hij)]

omit [DecidableEq Q] in
lemma membersOf_set_thread (threads : List (Thread Q Closure)) (script : ℕ → List (Op Q)) (i : ℕ)
    (th : Thread Q Closure) :
    membersOf (threads.set i th) script = (membersOf threads script).set i (th, script i) := by
  rw [← membersOf_set, Function.update_eq_self]

omit [DecidableEq Q] in
lemma membersOf_update (threads : List (Thread Q Closure)) (script : ℕ → List (Op Q)) {i : ℕ}
    {th : Thread Q Closure} (hth : threads[i]? = some th) (sc : List (Op Q)) :
    membersOf threads (Function.update script i sc)
      = (membersOf threads script).set i (th, sc) := by
  rw [← membersOf_set]
  congr
  obtain ⟨hlt, rfl⟩ := List.getElem?_eq_some_iff.mp hth
  simp

/-- Threads that do not exist yet have no script. -/
def State.Bounded (s : State Q) : Prop :=
  ∀ i, s.base.threads.length ≤ i → s.script i = []

omit [DecidableEq Q] in
lemma membersOf_append {threads : List (Thread Q Closure)} {script : ℕ → List (Op Q)}
    (new : List (Thread Q Closure)) (hnew : ∀ i, threads.length ≤ i → script i = []) :
    membersOf (threads ++ new) script = membersOf threads script ++ new.map (·, []) := by
  rw [membersOf, List.mapIdx_append]
  congr 1
  apply List.ext_getElem?
  intro j
  simp [hnew]

/-! ## The cases -/

/-- The moves of one member that are outside the queues' code and push no action. `id` is the
identity of the next task. -/
inductive Local (id : ℕ) : Member Q → Member Q → Prop
  /-- User code pushes an ordinary task. -/
  | pushOrdinary (q : Q) (g : ℕ) {th sc} (huser : inUserCode th sc = true) :
      Local id (th, sc) ({ th with call := some (q, .push ⟨id, g, .ordinary⟩) }, sc)
  /-- The chain's code goes on. -/
  | proceed {op : Op Q} {th sc} (hcall : th.call = none) (huser : th.inUserCode = true)
      (hop : op ≠ .iAction) :
      Local id (th, op :: sc) ({ th with call := op.call?.map fun c => (c.1, c.2.entry id) }, sc)
  /-- The user's functor is over. -/
  | actionEnds {th sc} (hcall : th.call = none) (huser : th.inUserCode = true) :
      Local id (th, .iAction :: sc) (th, sc)
  /-- A task's functor is over. -/
  | finish (q : Q) (g : ℕ) (t : QueuedTask Closure) :
      Local id (⟨some (q, .execute g t), none⟩, []) (⟨some (q, .finishedTask g), none⟩, [])

omit [DecidableEq Q] in
/-- User code runs on one of the threads. -/
lemma thread_of_userCode {i : ℕ} (h : s.userCode i = true) :
    ∃ th, s.base.threads[i]? = some th ∧ inUserCode th (s.script i) = true := by
  unfold State.userCode at h
  split at h
  next th hth => exact ⟨th, hth, h⟩
  next => cases h

omit [DecidableEq Q] in
lemma thread_of_outsideQueues {i : ℕ} (h : s.outsideQueues i = true) :
    ∃ th, s.base.threads[i]? = some th ∧ th.call = none ∧ th.inUserCode = true := by
  unfold State.outsideQueues at h
  split at h
  next th hth =>
    rw [Bool.and_eq_true, Option.isNone_iff_eq_none] at h
    exact ⟨th, hth, h⟩
  next => cases h

omit [DecidableEq Q] in
lemma members_of_thread {i : ℕ} {th : Thread Q Closure} (h : s.base.threads[i]? = some th) :
    s.members[i]? = some (th, s.script i) := by
  rw [getElem?_members, h]
  rfl

omit [DecidableEq Q] in
lemma thread_of_members {i : ℕ} {m : Member Q} (h : s.members[i]? = some m) :
    s.base.threads[i]? = some m.1 ∧ s.script i = m.2 := by
  rw [getElem?_members] at h
  obtain ⟨th, hth, rfl⟩ := Option.map_eq_some_iff.mp h
  exact ⟨hth, rfl⟩

/-- An operation of a script: it is local, or a call to a queue. -/
lemma step_proceed {i : ℕ} (h : step m_queues s (.proceed i) = some s') :
    ∃ th op rest, s.base.threads[i]? = some th ∧ th.call = none ∧ th.inUserCode = true ∧
      s.script i = op :: rest ∧ op ≠ .iAction ∧
      s'.script = Function.update s.script i rest ∧ s'.nextAction = s.nextAction ∧
      (op.call? = none ∧ s'.base = s.base ∨
        ∃ q f, op.call? = some (q, f) ∧ SerialTaskQueue.step s.base (.call i q f) = some s'.base) := by
  simp only [step] at h
  split at h
  next op rest hout hscript =>
    obtain ⟨th, hth, hcall, huser⟩ := thread_of_outsideQueues hout
    split at h
    next => cases h
    next hop =>
      refine ⟨th, op, rest, hth, hcall, huser, hscript, hop, ?_⟩
      split at h
      next hnone =>
        obtain rfl := Option.some.inj h
        exact ⟨rfl, rfl, .inl ⟨hnone, rfl⟩⟩
      next q f hsome =>
        obtain ⟨b, hb, rfl⟩ := Option.map_eq_some_iff.mp h
        exact ⟨rfl, rfl, .inr ⟨q, f, hsome, hb⟩⟩
  next => cases h

/-- The code that is left after a thread has made the operation `pt`, where several chains share the
queues. -/
def nextScriptThrough (chainOf : ℕ → List Q) (sc : List (Op Q)) : Point Closure → List (Op Q)
  | .loop _ t => t.action.code (t.action.queues chainOf)
  | _ => sc

/-- What the step with a label does to the members and the queues. -/
inductive LabelCase (chainOf : ℕ → List Q) (s s' : State Q) : Label Q → Prop
  | fork (hmembers : s'.members = s.members ++ [(⟨none, none⟩, [])])
      (hqueue : s'.base.queue = s.base.queue) (hnext : s'.nextAction = s.nextAction) :
      LabelCase chainOf s s' .fork
  | push {i g : ℕ} {th : Thread Q Closure} {sc : List (Op Q)} (hm : s.members[i]? = some (th, sc))
      (huser : inUserCode th sc = true)
      (hmembers : s'.members
        = s.members.set i (th, push (chainOf s.nextAction) g s.nextAction ++ sc))
      (hqueue : s'.base.queue = s.base.queue) (hnext : s'.nextAction = s.nextAction + 1) :
      LabelCase chainOf s s' (.push i g)
  | pushOrdinary {i : ℕ} {q : Q} {g : ℕ} {th : Thread Q Closure} {sc : List (Op Q)}
      (hm : s.members[i]? = some (th, sc)) (huser : inUserCode th sc = true)
      (hmembers : s'.members = s.members.set i
        ({ th with call := some (q, .push ⟨s.base.nextId, g, .ordinary⟩) }, sc))
      (hqueue : s'.base.queue = s.base.queue) (hnext : s'.nextAction = s.nextAction) :
      LabelCase chainOf s s' (.pushOrdinary i q g)
  | proceed {i : ℕ} {th : Thread Q Closure} {op : Op Q} {sc : List (Op Q)}
      (hm : s.members[i]? = some (th, op :: sc)) (hcall : th.call = none)
      (huser : th.inUserCode = true) (hop : op ≠ .iAction)
      (hmembers : s'.members = s.members.set i
        ({ th with call := op.call?.map fun c => (c.1, c.2.entry s.base.nextId) }, sc))
      (hqueue : s'.base.queue = s.base.queue) (hnext : s'.nextAction = s.nextAction) :
      LabelCase chainOf s s' (.proceed i)
  | actionEnds {i : ℕ} {threw : Bool} {th : Thread Q Closure} {sc : List (Op Q)}
      (hm : s.members[i]? = some (th, .iAction :: sc)) (hcall : th.call = none)
      (huser : th.inUserCode = true) (hmembers : s'.members = s.members.set i (th, sc))
      (hqueue : s'.base.queue = s.base.queue) (hnext : s'.nextAction = s.nextAction) :
      LabelCase chainOf s s' (.actionEnds i threw)
  | advance {i : ℕ} {th : Thread Q Closure} {sc : List (Op Q)} {q : Q} {pt : Point Closure}
      {r : Result Closure} (hm : s.members[i]? = some (th, sc)) (hpt : th.next? = some (q, pt))
      (hr : pt.step (s.base.queue q) = some r)
      (hmembers : s'.members
        = s.members.set i (th.goto (r.next.map (q, ·)), nextScriptThrough chainOf sc pt)
          ++ r.spawned.toList.map fun t => (⟨some (q, .waiting t), none⟩, []))
      (hqueue : s'.base.queue = Function.update s.base.queue q r.queue)
      (hnext : s'.nextAction = s.nextAction) : LabelCase chainOf s s' (.advance i)
  | finish {i : ℕ} {threw : Bool} {q : Q} {g : ℕ} {t : QueuedTask Closure}
      (hm : s.members[i]? = some (⟨some (q, .execute g t), none⟩, []))
      (hmembers : s'.members = s.members.set i (⟨some (q, .finishedTask g), none⟩, []))
      (hqueue : s'.base.queue = s.base.queue) (hnext : s'.nextAction = s.nextAction) :
      LabelCase chainOf s s' (.finish i threw)

/-- **Inversion.** What every step of the program does, label by label. -/
theorem label_cases {chainOf : ℕ → List Q} (hbound : s.Bounded)
    (h : stepThrough chainOf s a = some s') : LabelCase chainOf s s' a := by
  unfold stepThrough at h
  cases a with
  | fork =>
    simp only [step] at h
    obtain ⟨b, hb, rfl⟩ := Option.map_eq_some_iff.mp h
    obtain rfl := Option.some.inj hb
    exact .fork (membersOf_append [{}] hbound) rfl rfl
  | push i g =>
    simp only [step] at h
    split at h
    next huser =>
      obtain ⟨th, hth, huser⟩ := thread_of_userCode huser
      obtain rfl := Option.some.inj h
      exact .push (members_of_thread hth) huser (membersOf_update _ _ hth _) rfl rfl
    next => cases h
  | pushOrdinary i q g =>
    simp only [step] at h
    split at h
    next huser =>
      obtain ⟨th, hth, huser⟩ := thread_of_userCode huser
      obtain ⟨b, hb, rfl⟩ := Option.map_eq_some_iff.mp h
      obtain ⟨th', hth', hcall, -, rfl⟩ := SerialTaskQueue.step_call hb
      obtain rfl : th' = th := by simpa [hth] using hth'.symm
      exact .pushOrdinary (members_of_thread hth) huser (membersOf_set_thread _ _ _ _) rfl rfl
    next => cases h
  | proceed i =>
    obtain ⟨th, op, rest, hth, hcall, huser, hscript, hop, hscript', hnext, hbase⟩ :=
      step_proceed h
    have hm := members_of_thread hth
    rw [hscript] at hm
    refine .proceed hm hcall huser hop ?_ ?_ hnext
    · rw [State.members, hscript']
      -- an operation that is no call of a queue moves the script alone
      rcases hbase with ⟨hnone, hb⟩ | ⟨q, f, hsome, hb⟩
      · rw [hb, hnone, membersOf_update _ _ hth]
        obtain ⟨job, call⟩ := th
        simp only at hcall
        subst hcall
        rfl
      · obtain ⟨th', hth', -, -, hb⟩ := SerialTaskQueue.step_call hb
        obtain rfl : th' = th := by simpa [hth] using hth'.symm
        rw [hb, hsome, membersOf_set]
        rfl
    · rcases hbase with ⟨-, hb⟩ | ⟨q, f, -, hb⟩
      · rw [hb]
      · obtain ⟨_, _, _, _, hb⟩ := SerialTaskQueue.step_call hb
        rw [hb]
  | actionEnds i threw =>
    simp only [step] at h
    split at h
    next rest hout hscript =>
      obtain ⟨th, hth, hcall, huser⟩ := thread_of_outsideQueues hout
      have hafter : afterAction rest threw = rest := by cases threw <;> rfl
      rw [hafter] at h
      obtain rfl := Option.some.inj h
      have hm := members_of_thread hth
      rw [hscript] at hm
      exact .actionEnds hm hcall huser (membersOf_update _ _ hth _) rfl rfl
    next => cases h
  | advance i =>
    simp only [step] at h
    split at h
    next q pt hbind =>
      obtain ⟨b, hb, rfl⟩ := Option.map_eq_some_iff.mp h
      obtain ⟨th, q', pt', r, hth, hnext, hr, rfl⟩ := SerialTaskQueue.step_advance hb
      obtain ⟨rfl, rfl⟩ : q' = q ∧ pt' = pt := by simpa [hth, hnext] using hbind
      -- only `loop` takes up a functor, so only there the script becomes new
      have hcode : nextScript (s.running chainOf (.advance i)) (s.script i) pt'
          = nextScriptThrough chainOf (s.script i) pt' := by
        cases pt' with
        | loop g t => simp only [nextScript, nextScriptThrough, State.running, hbind]
        | _ => rfl
      refine .advance (members_of_thread hth) hnext hr ?_ rfl rfl
      -- a thread that is spawned has no script yet
      have hlen : ∀ j, (s.base.threads.set i (th.goto (r.next.map (q', ·)))).length ≤ j →
          Function.update s.script i (nextScriptThrough chainOf (s.script i) pt') j = [] := by
        intro j hj
        obtain ⟨hlt, -⟩ := List.getElem?_eq_some_iff.mp hth
        rw [List.length_set] at hj
        rw [Function.update_of_ne (by omega)]
        exact hbound j hj
      rw [State.members, hcode, SerialTaskQueue.State.put, membersOf_append _ hlen, membersOf_set,
        List.map_map]
      rfl
    next => cases h
  | finish i threw =>
    simp only [step] at h
    split at h
    next hscript =>
      obtain ⟨b, hb, rfl⟩ := Option.map_eq_some_iff.mp h
      obtain ⟨q, g, t, hth, rfl⟩ := SerialTaskQueue.step_finish hb
      have hm := members_of_thread hth
      rw [hscript] at hm
      refine .finish hm ?_ rfl rfl
      rw [State.members, membersOf_set_thread, hscript]
      rfl
    next => cases h

/-- What a step does to the members and the queues. -/
inductive ThroughCase (chainOf : ℕ → List Q) (s : State Q) (a : Label Q) (s' : State Q) : Prop
  /-- A new thread appears. -/
  | forked (hmembers : s'.members = s.members ++ [(⟨none, none⟩, [])])
      (hqueue : s'.base.queue = s.base.queue) (hnext : s'.nextAction = s.nextAction)
  /-- User code calls `push` of a chain. -/
  | pushed (i g : ℕ) (th : Thread Q Closure) (sc : List (Op Q))
      (hm : s.members[i]? = some (th, sc)) (huser : inUserCode th sc = true)
      (hmembers : s'.members
        = s.members.set i (th, push (chainOf s.nextAction) g s.nextAction ++ sc))
      (hqueue : s'.base.queue = s.base.queue) (hnext : s'.nextAction = s.nextAction + 1)
  /-- One member moves outside the queues' code. -/
  | moved (i : ℕ) (m m' : Member Q) (hm : s.members[i]? = some m)
      (hlocal : Local s.base.nextId m m') (hmembers : s'.members = s.members.set i m')
      (hqueue : s'.base.queue = s.base.queue) (hnext : s'.nextAction = s.nextAction)
  /-- A thread makes an operation at queue `q`. -/
  | advanced (i : ℕ) (th : Thread Q Closure) (sc : List (Op Q)) (q : Q) (pt : Point Closure)
      (r : Result Closure) (hlabel : a = .advance i) (hm : s.members[i]? = some (th, sc))
      (hpt : th.next? = some (q, pt)) (hr : pt.step (s.base.queue q) = some r)
      (hmembers : s'.members
        = s.members.set i (th.goto (r.next.map (q, ·)), nextScriptThrough chainOf sc pt)
          ++ r.spawned.toList.map fun t => (⟨some (q, .waiting t), none⟩, []))
      (hqueue : s'.base.queue = Function.update s.base.queue q r.queue)
      (hnext : s'.nextAction = s.nextAction)

/-- **Inversion.** Every step of the program is one of the four cases. -/
theorem through_cases {chainOf : ℕ → List Q} (hbound : s.Bounded)
    (h : stepThrough chainOf s a = some s') : ThroughCase chainOf s a s' := by
  cases label_cases hbound h with
  | fork hmembers hqueue hnext => exact .forked hmembers hqueue hnext
  | push hm huser hmembers hqueue hnext => exact .pushed _ _ _ _ hm huser hmembers hqueue hnext
  | @pushOrdinary i q g _ _ hm huser hmembers hqueue hnext =>
    exact .moved _ _ _ hm (.pushOrdinary q g huser) hmembers hqueue hnext
  | proceed hm hcall huser hop hmembers hqueue hnext =>
    exact .moved _ _ _ hm (.proceed hcall huser hop) hmembers hqueue hnext
  | actionEnds hm hcall huser hmembers hqueue hnext =>
    exact .moved _ _ _ hm (.actionEnds hcall huser) hmembers hqueue hnext
  | advance hm hpt hr hmembers hqueue hnext =>
    exact .advanced _ _ _ _ _ _ rfl hm hpt hr hmembers hqueue hnext
  | finish hm hmembers hqueue hnext =>
    exact .moved _ _ _ hm (.finish _ _ _) hmembers hqueue hnext

/-! ## Scripts belong to threads -/

/-- Every step is a step of the queues, or leaves them alone. -/
lemma step_base (h : step m_queues s a = some s') :
    s'.base = s.base ∨ ∃ b, SerialTaskQueue.step s.base b = some s'.base ∧
      (Fresh s a → SerialTaskQueue.Fresh s.base b) ∧ ∀ i, b = .advance i → a = .advance i := by
  cases a with
  | push i g =>
    simp only [step] at h
    split at h
    · obtain rfl := Option.some.inj h
      exact .inl rfl
    · cases h
  | proceed i =>
    obtain ⟨_, _, _, _, _, _, _, _, _, _, hbase⟩ := step_proceed h
    rcases hbase with ⟨-, hb⟩ | ⟨q, f, -, hb⟩
    · exact .inl hb
    · exact .inr ⟨_, hb, fun _ => rfl, by simp⟩
  | actionEnds i threw =>
    simp only [step] at h
    split at h
    · obtain rfl := Option.some.inj h
      exact .inl rfl
    · cases h
  | advance i =>
    simp only [step] at h
    split at h
    · obtain ⟨b, hb, rfl⟩ := Option.map_eq_some_iff.mp h
      exact .inr ⟨_, hb, fun hfresh => hfresh, by simp⟩
    · cases h
  | fork =>
    simp only [step] at h
    obtain ⟨b, hb, rfl⟩ := Option.map_eq_some_iff.mp h
    exact .inr ⟨_, hb, fun _ => rfl, by simp⟩
  | pushOrdinary i q g =>
    simp only [step] at h
    split at h
    · obtain ⟨b, hb, rfl⟩ := Option.map_eq_some_iff.mp h
      exact .inr ⟨_, hb, fun _ => rfl, by simp⟩
    · cases h
  | finish i threw =>
    simp only [step] at h
    split at h
    · obtain ⟨b, hb, rfl⟩ := Option.map_eq_some_iff.mp h
      exact .inr ⟨_, hb, fun _ => rfl, by simp⟩
    · cases h

/-- The queues of the chains run as queues do: what holds of `SerialTaskQueue` holds of them. -/
theorem reachable_base_through {chainOf : ℕ → List Q} (h : ReachableThrough chainOf s) :
    SerialTaskQueue.Reachable s.base := by
  refine h.simulate (f := State.base) fun s a s' _ hstep => ?_
  rcases step_base hstep with heq | ⟨b, hb, -⟩
  · rw [heq]
    exact .refl
  · exact .tail .refl trivial hb

/-- The queues under the chain run like any other. -/
theorem reachable_base (h : Reachable m_queues s) : SerialTaskQueue.Reachable s.base :=
  reachable_base_through h.through

/-- A step changes the script of an existing thread at most. -/
lemma script_step (h : step m_queues s a = some s') :
    s'.script = s.script ∨ ∃ i sc, i < s.base.threads.length ∧
      s'.script = Function.update s.script i sc := by
  cases a with
  | push i g =>
    simp only [step] at h
    split at h
    next huser =>
      obtain ⟨th, hth, -⟩ := thread_of_userCode huser
      obtain rfl := Option.some.inj h
      exact .inr ⟨i, _, (List.getElem?_eq_some_iff.mp hth).1, rfl⟩
    next => cases h
  | proceed i =>
    obtain ⟨th, _, rest, hth, _, _, _, _, hscript, _, _⟩ := step_proceed h
    exact .inr ⟨i, rest, (List.getElem?_eq_some_iff.mp hth).1, hscript⟩
  | actionEnds i threw =>
    simp only [step] at h
    split at h
    next hout _ =>
      obtain ⟨th, hth, -⟩ := thread_of_outsideQueues hout
      obtain rfl := Option.some.inj h
      exact .inr ⟨i, _, (List.getElem?_eq_some_iff.mp hth).1, rfl⟩
    next => cases h
  | advance i =>
    simp only [step] at h
    split at h
    next q pt hbind =>
      obtain ⟨b, hb, rfl⟩ := Option.map_eq_some_iff.mp h
      obtain ⟨th, hth, -⟩ := Option.bind_eq_some_iff.mp hbind
      exact .inr ⟨i, _, (List.getElem?_eq_some_iff.mp hth).1, rfl⟩
    next => cases h
  | fork =>
    simp only [step] at h
    obtain ⟨b, hb, rfl⟩ := Option.map_eq_some_iff.mp h
    exact .inl rfl
  | pushOrdinary i q g =>
    simp only [step] at h
    split at h
    · obtain ⟨b, hb, rfl⟩ := Option.map_eq_some_iff.mp h
      exact .inl rfl
    · cases h
  | finish i threw =>
    simp only [step] at h
    split at h
    · obtain ⟨b, hb, rfl⟩ := Option.map_eq_some_iff.mp h
      exact .inl rfl
    · cases h

/-- Threads that do not exist yet have no script. -/
theorem bounded_through {chainOf : ℕ → List Q} (h : ReachableThrough chainOf s) : s.Bounded := by
  refine h.invariant (I := State.Bounded) (fun _ _ => rfl) fun s a s' ih _ hstep => ?_
  have hlen : s.base.threads.length ≤ s'.base.threads.length := by
    rcases step_base hstep with heq | ⟨b, hb, -⟩
    · rw [heq]
    · exact SerialTaskQueue.length_le hb
  intro j hj
  rcases script_step hstep with heq | ⟨i, sc, hi, heq⟩
  · rw [heq]
    exact ih j (by omega)
  · rw [heq, Function.update_of_ne (by omega)]
    exact ih j (by omega)

theorem bounded (h : Reachable m_queues s) : s.Bounded :=
  bounded_through h.through

end UnifyPrototype.SerialTaskQueueChain
