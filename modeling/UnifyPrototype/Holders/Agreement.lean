import UnifyPrototype.Holders.Counted
import Mathlib.Data.List.Forall2
import Mathlib.Data.List.Induction

/-!
# The two classes agree

A holder of one class and its counterpart of the other one hold the same task. Every member function
keeps that, but for one: the copy constructor of `WaitingTaskHolder`, and with it its copy assignment,
does not ask whether there is a task.
-/

namespace UnifyPrototype.Holders

open UnifyPrototype.Utils HolderClass

variable {E : Type} {w w' : World E} {h : WaitingTaskHolder} {h' : WaitingTaskWithArenaHolder}

/-! ## Member functions in lockstep -/

/-- The two hold the same task, in the same group; the second one has an arena for it. -/
structure Matches (h : WaitingTaskHolder) (h' : WaitingTaskWithArenaHolder) : Prop where
  task : h.task = h'.task
  group : h.task.isSome → h.group.isSome ∧ h.group = h'.group
  arena : h.task.isSome → h'.arena.isSome

/-- The tasks are the same, and the same ones wait and were executed. Nothing waits in an arena for
holders without one. -/
structure SameWorld (w w' : World E) : Prop where
  tasks : w.tasks = w'.tasks
  executed : w.executed = w'.executed
  waiting : w.waiting.Perm w'.waiting
  enqueued : w.enqueued = []

/-- Holders side by side both have a task or both have none. -/
lemma Matches.hasTask (h₁ : Matches h h') : h.hasTask = h'.hasTask := by
  unfold WaitingTaskHolder.hasTask WaitingTaskWithArenaHolder.hasTask
  rw [h₁.task]

/-- Two holders without a task. -/
lemma Matches.of_none {g g' a : Option ℕ} : Matches ⟨none, g⟩ ⟨none, g', a⟩ :=
  ⟨rfl, nofun, nofun⟩

/-- A pointer leads both to the same task. -/
lemma task_lockstep (hw : SameWorld w w') (p : Option ℕ) :
    Lockstep Eq (w.task p) (w'.task p) := by
  unfold World.task
  rw [hw.tasks]
  cases p with
  | none => exact .error _
  | some t =>
    dsimp only
    split
    · exact .ok rfl
    · exact .error _

/-- A change of a task is the same on both sides. -/
lemma modify_lockstep (hw : SameWorld w w') (p : Option ℕ) (f : WaitingTask.Task E → WaitingTask.Task E) :
    Lockstep SameWorld (w.modify p f) (w'.modify p f) := by
  apply (task_lockstep hw p).bind
  rintro ⟨t, m⟩ _ rfl
  apply Lockstep.ok
  exact ⟨by rw [hw.tasks], hw.executed, hw.waiting, hw.enqueued⟩

/-- A decrement returns the same on both sides. -/
lemma decrementRefCount_lockstep (hw : SameWorld w w') (p : Option ℕ) :
    Lockstep (fun r r' => SameWorld r.1 r'.1 ∧ r.2 = r'.2) (w.decrementRefCount p)
      (w'.decrementRefCount p) := by
  apply (task_lockstep hw p).bind
  rintro ⟨t, m⟩ _ rfl
  apply (modify_lockstep hw p _).bind
  intro v v' hv
  exact .ok ⟨hv, rfl⟩

lemma reportFailure_lockstep (hw : SameWorld w w') (p : Option ℕ) (e : Option E) :
    Lockstep SameWorld (w.reportFailure p e) (w'.reportFailure p e) := by
  cases e with
  | none => exact .ok hw
  | some e => exact modify_lockstep hw p (dependentTaskFailed · e)

/-- The group gets the task at once, or after the arena has run. -/
lemma handOver_lockstep (hw : SameWorld w w') (hm : Matches h h') (ht : h.task.isSome) :
    Lockstep SameWorld (w.groupRun h.group h.task)
      (w'.arenaEnqueue h'.arena h'.group h'.task) := by
  obtain ⟨hsome, hgroup⟩ := hm.group ht
  obtain ⟨g, hg⟩ := Option.isSome_iff_exists.mp hsome
  obtain ⟨t, htask⟩ := Option.isSome_iff_exists.mp ht
  obtain ⟨a, ha⟩ := Option.isSome_iff_exists.mp (hm.arena ht)
  rw [← hgroup, ← hm.task, hg, htask, ha]
  apply Lockstep.ok
  refine ⟨hw.tasks, hw.executed, ?_, hw.enqueued⟩
  have hwaiting := hw.waiting.append_right [(some g, t)]
  simp only [World.waiting, List.map_append, List.map_cons, List.map_nil, List.append_assoc]
    at hwaiting ⊢
  refine hwaiting.trans (List.Perm.append_left _ ?_)
  exact List.perm_append_comm

/-- The two constructors give holders that match. -/
lemma construct_lockstep (hw : SameWorld w w') (attached iGroup iTask : ℕ) :
    Lockstep (fun r r' => SameWorld r.1 r'.1 ∧ Matches r.2 r'.2)
      (WaitingTaskHolder.construct w iGroup iTask)
      (WaitingTaskWithArenaHolder.construct w' attached iGroup iTask) := by
  apply (modify_lockstep hw (some iTask) _).bind
  intro v v' hv
  exact .ok ⟨hv, rfl, fun _ => ⟨rfl, rfl⟩, fun _ => rfl⟩

/-- `doneWaiting` goes alike, where there is a task. -/
lemma doneWaiting_lockstep (hw : SameWorld w w') (hm : Matches h h') (ht : h.task.isSome)
    (e : Option E) :
    Lockstep (fun r r' => SameWorld r.1 r'.1 ∧ Matches r.2 r'.2) (h.doneWaiting w e)
      (h'.doneWaiting w' e) := by
  unfold WaitingTaskHolder.doneWaiting WaitingTaskWithArenaHolder.doneWaiting
  rw [← hm.task]
  apply (reportFailure_lockstep hw h.task e).bind
  intro v v' hv
  apply (decrementRefCount_lockstep hv h.task).bind
  rintro ⟨u, n⟩ ⟨u', n'⟩ ⟨hu, rfl⟩
  by_cases hn : 0 = n
  · simp only [if_pos hn]
    have hgives := handOver_lockstep hu hm ht
    rw [← hm.task] at hgives
    apply hgives.bind
    intro x x' hx
    exact .ok ⟨hx, .of_none⟩
  · simp only [if_neg hn]
    exact .ok ⟨hu, .of_none⟩

/-- The two destructors go alike, with a task and without. -/
lemma destroy_lockstep (hw : SameWorld w w') (hm : Matches h h') :
    Lockstep SameWorld (h.destroy w) (h'.destroy w') := by
  unfold WaitingTaskHolder.destroy WaitingTaskWithArenaHolder.destroy
  rw [← hm.task]
  split
  next ht =>
    apply (doneWaiting_lockstep hw hm ht none).bind
    rintro r r' ⟨hr, -⟩
    exact .ok hr
  next => exact .ok hw

/-- The copy of a holder with a task. -/
lemma copy_lockstep (hw : SameWorld w w') (hm : Matches h h') (ht : h.task.isSome) :
    Lockstep (fun r r' => SameWorld r.1 r'.1 ∧ Matches r.2 r'.2) (h.copy w) (h'.copy w') := by
  unfold WaitingTaskHolder.copy WaitingTaskWithArenaHolder.copy
  rw [← hm.task]
  simp only [ht, if_true]
  apply (modify_lockstep hw h.task _).bind
  intro v v' hv
  exact .ok ⟨hv, rfl, hm.group, hm.arena⟩

/-- The copy of a `WaitingTaskHolder` without a task. -/
lemma copy_eq_error (ht : h.hasTask = false) : h.copy w = .error .badPointer := by
  have hnone : h.task = none := by simpa [WaitingTaskHolder.hasTask] using ht
  simp only [WaitingTaskHolder.copy, World.incrementRefCount, World.modify, World.task, hnone]
  rfl

/-- A copy from a holder with a task goes alike. -/
lemma copyAssign_lockstep {k : WaitingTaskHolder} {k' : WaitingTaskWithArenaHolder}
    (hw : SameWorld w w') (hm : Matches h h') (hk : Matches k k') (ht : k.task.isSome) :
    Lockstep (fun r r' => SameWorld r.1 r'.1 ∧ Matches r.2 r'.2) (h.copyAssign w k)
      (h'.copyAssign w' k') := by
  apply (copy_lockstep hw hk ht).bind
  rintro ⟨v, tmp⟩ ⟨v', tmp'⟩ ⟨hv, htmp⟩
  have hold : Matches ⟨h.task, h.group⟩ ⟨h'.task, h'.group, h'.arena⟩ :=
    ⟨hm.task, hm.group, hm.arena⟩
  apply (destroy_lockstep hv hold).bind
  intro u u' hu
  exact .ok ⟨hu, htmp.task, htmp.group, htmp.arena⟩

/-! ## Lists of holders -/

/-- Object by object. -/
abbrev MatchesAll : List (Option WaitingTaskHolder) → List (Option WaitingTaskWithArenaHolder) → Prop :=
  List.Forall₂ (Option.Rel Matches)

variable {l : List (Option WaitingTaskHolder)} {l' : List (Option WaitingTaskWithArenaHolder)}

lemma object_lockstep (hl : MatchesAll l l') (i : ℕ) :
    Lockstep Matches (object l i) (object l' i) := by
  induction hl generalizing i with
  | nil => exact .error _
  | @cons o o' l l' ho _ ih =>
    cases i with
    | zero =>
      cases ho with
      | none => exact .error _
      | some hm => exact .ok hm
    | succ i => simpa [object] using ih i

/-- A place is given a new holder on both sides. -/
lemma matchesAll_set {o : Option WaitingTaskHolder} {o' : Option WaitingTaskWithArenaHolder}
    (hl : MatchesAll l l') (ho : Option.Rel Matches o o') (i : ℕ) :
    MatchesAll (l.set i o) (l'.set i o') := by
  induction hl generalizing i with
  | nil => exact .nil
  | cons h₁ hrest ih =>
    cases i with
    | zero => exact .cons ho hrest
    | succ i => exact .cons h₁ (ih i)

/-- A holder more on both sides. -/
lemma matchesAll_append (hl : MatchesAll l l') (hm : Matches h h') :
    MatchesAll (l ++ [some h]) (l' ++ [some h']) := by
  induction hl with
  | nil => exact .cons (.some hm) .nil
  | cons h₁ _ ih => exact .cons h₁ ih

/-- A move goes alike, also from a holder without a task. -/
lemma moveAssign_lockstep (hw : SameWorld w w') (hl : MatchesAll l l') (i j : ℕ) :
    Lockstep (fun r r' => SameWorld r.1 r'.1 ∧ MatchesAll r.2 r'.2)
      (WaitingTaskHolder.moveAssign w l i j) (WaitingTaskWithArenaHolder.moveAssign w' l' i j) := by
  apply (object_lockstep hl j).bind
  intro rhs rhs' hrhs
  have hempty : Matches ⟨none, rhs.group⟩ ⟨none, rhs'.group, none⟩ := .of_none
  have hmoved := matchesAll_set hl (.some hempty) j
  apply (object_lockstep hmoved i).bind
  intro this this' hthis
  have hold : Matches ⟨this.task, this.group⟩ ⟨this'.task, this'.group, this'.arena⟩ :=
    ⟨hthis.task, hthis.group, hthis.arena⟩
  apply (destroy_lockstep hw hold).bind
  intro v v' hv
  exact .ok ⟨hv, matchesAll_set hmoved (.some ⟨hrhs.task, hrhs.group, hrhs.arena⟩) i⟩

/-! ## Calls and events -/

/-- The holder that the call copies. -/
def Op.copied : Op E → Option ℕ
  | .copy h => some h
  | .copyAssign _ r => some r
  | _ => none

/-- If the event copies a holder, that holder has a task. -/
def State.CopiesTask {H : Type} [HolderClass H] (s : State H E) : Event E → Prop
  | .call op => ∀ h holder, op.copied = some h → s.holders[h]? = some (some holder) →
      hasTask holder = true
  | _ => True

/-- What holds of the two classes after the same events. -/
structure Simulates (s : State WaitingTaskHolder E) (s' : State WaitingTaskWithArenaHolder E) :
    Prop where
  world : SameWorld s.world s'.world
  holders : MatchesAll s.holders s'.holders
  answers : s.answers = s'.answers

variable {s u : State WaitingTaskHolder E} {s' u' : State WaitingTaskWithArenaHolder E} {op : Op E}
  {event : Event E}

lemma holding_lockstep (hs : Simulates s s') (i : ℕ) :
    Lockstep (fun h h' => Matches h h' ∧ h.task.isSome) (s.holding i) (s'.holding i) := by
  apply (object_lockstep hs.holders i).bind
  intro h h' hm
  have hsame : hasTask h = hasTask h' := hm.hasTask
  rw [hsame]
  split
  next ht => exact .ok ⟨hm, hsame.trans ht⟩
  next => exact .error _

lemma object_eq_ok {H : Type} {holders : List (Option H)} {i : ℕ} {holder : H} :
    object holders i = .ok holder ↔ holders[i]? = some (some holder) := by
  unfold object
  split
  next heq => simp [heq]
  next hne =>
    constructor
    · intro h
      cases h
    · intro h
      exact absurd h (hne holder)

/-- The condition on copies, for the counterpart. -/
lemma isSome_of_copiesTask {i : ℕ} (hm : Matches h h') (hcopies : s'.CopiesTask (.call op))
    (hop : op.copied = some i) (ho : object s'.holders i = .ok h') : h.task.isSome := by
  have ht := hcopies i h' hop (object_eq_ok.mp ho)
  rw [hm.task]
  exact ht

/-- Each call goes alike, if it copies no holder without a task. -/
lemma call_lockstep (hs : Simulates s s') (hcopies : s'.CopiesTask (.call op)) :
    Lockstep Simulates (op.call s) (op.call s') := by
  obtain ⟨hw, hl, hanswers⟩ := hs
  cases op with
  | newTask =>
    refine .ok ⟨⟨?_, hw.executed, hw.waiting, hw.enqueued⟩, hl, hanswers⟩
    exact congrArg (· ++ [some {}]) hw.tasks
  | default => exact .ok ⟨hw, matchesAll_append hl .of_none, hanswers⟩
  | construct attached iGroup iTask =>
    have hmem : iTask ∈ s.world.waiting.map Prod.snd ↔ iTask ∈ s'.world.waiting.map Prod.snd :=
      (hw.waiting.map Prod.snd).mem_iff
    simp only [Op.call, hw.tasks, hmem]
    split
    · apply (construct_lockstep hw attached iGroup iTask).bind
      rintro r r' ⟨hr, hnew⟩
      exact .ok ⟨hr, matchesAll_append hl hnew, hanswers⟩
    · exact .error _
  -- only here the condition on copies is needed
  | copy i =>
    apply (object_lockstep hl i).bind_of_eq
    intro h h' ho hm
    apply (copy_lockstep hw hm (isSome_of_copiesTask hm hcopies rfl ho)).bind
    rintro r r' ⟨hr, hnew⟩
    exact .ok ⟨hr, matchesAll_append hl hnew, hanswers⟩
  -- one class leaves the source without a task, the other one without anything
  | move i =>
    apply (object_lockstep hl i).bind
    intro h h' hm
    refine .ok ⟨hw, matchesAll_append (matchesAll_set hl ?_ i) ?_, hanswers⟩
    · exact .some .of_none
    · exact ⟨hm.task, hm.group, hm.arena⟩
  | copyAssign i j =>
    apply (object_lockstep hl i).bind
    intro h h' hm
    apply (object_lockstep hl j).bind_of_eq
    intro k k' ho hk
    apply (copyAssign_lockstep hw hm hk (isSome_of_copiesTask hk hcopies rfl ho)).bind
    rintro r r' ⟨hr, hthis⟩
    exact .ok ⟨hr, matchesAll_set hl (.some hthis) i, hanswers⟩
  | moveAssign i j =>
    apply (moveAssign_lockstep hw hl i j).bind
    rintro r r' ⟨hr, hholders⟩
    exact .ok ⟨hr, hholders, hanswers⟩
  | destroy i =>
    apply (object_lockstep hl i).bind
    intro h h' hm
    apply (destroy_lockstep hw hm).bind
    intro v v' hv
    exact .ok ⟨hv, matchesAll_set hl .none i, hanswers⟩
  | presetTaskAsFailed i e =>
    apply (holding_lockstep ⟨hw, hl, hanswers⟩ i).bind
    rintro h h' ⟨hm, -⟩
    have hreports := reportFailure_lockstep hw h.task e
    have hsame : h'.presetTaskAsFailed s'.world e = s'.world.reportFailure h.task e := by
      rw [hm.task]
      rfl
    rw [← hsame] at hreports
    apply hreports.bind
    intro v v' hv
    exact .ok ⟨hv, hl, hanswers⟩
  -- the task may end here, in a group or in an arena: `SameWorld` takes both as waiting
  | doneWaiting i e =>
    apply (holding_lockstep ⟨hw, hl, hanswers⟩ i).bind
    rintro h h' ⟨hm, ht⟩
    apply (doneWaiting_lockstep hw hm ht e).bind
    rintro r r' ⟨hr, hholder⟩
    exact .ok ⟨hr, matchesAll_set hl (.some hholder) i, hanswers⟩
  | taskHasFailed i =>
    apply (holding_lockstep ⟨hw, hl, hanswers⟩ i).bind
    rintro h h' ⟨hm, -⟩
    have hanswer : Lockstep Eq (h.taskHasFailed s.world) (h'.taskHasFailed s'.world) := by
      unfold WaitingTaskHolder.taskHasFailed WaitingTaskWithArenaHolder.taskHasFailed
      rw [← hm.task]
      apply (task_lockstep hw h.task).bind
      rintro r _ rfl
      exact .ok rfl
    apply hanswer.bind
    rintro failed _ rfl
    exact .ok ⟨hw, hl, congrArg (· ++ [failed]) hanswers⟩

/-! ## Sequences of events -/

/-- That an arena runs a task in its group is not seen from outside. -/
def Event.visible : Event E → Bool
  | .arena _ => false
  | _ => true

/-- A call that returns has not copied a `WaitingTaskHolder` without a task. -/
lemma copiesTask_of_ok (hs : Simulates s s') (hstep : step s event = .ok u) : s'.CopiesTask event := by
  cases event with
  | arena item => trivial
  | group item => trivial
  | call op =>
    intro i h' hop hi
    -- the counterpart of a holder without a task has none, and its copy does not return
    have hsource : ∃ h, object s.holders i = .ok h ∧ Matches h h' := by
      have hobject := object_lockstep hs.holders i
      rw [object_eq_ok.mpr hi] at hobject
      exact hobject.exists_left
    obtain ⟨h, ho, hm⟩ := hsource
    by_contra ht
    have hnone : h.hasTask = false := by
      rw [hm.hasTask]
      exact Bool.eq_false_of_not_eq_true ht
    have hfails : h.copy s.world = .error .badPointer := copy_eq_error hnone
    cases op with
    | copy j =>
      obtain rfl := Option.some.inj hop
      have hcopy : (object s.holders j >>= fun iHolder => iHolder.copy s.world >>= fun r =>
          pure { s with world := r.1, holders := s.holders ++ [some r.2] }) = .ok u := hstep
      rw [ho] at hcopy
      simp only [bind, Except.bind, hfails] at hcopy
      cases hcopy
    | copyAssign l r =>
      obtain rfl := Option.some.inj hop
      have hassign : (object s.holders l >>= fun this => object s.holders r >>= fun iRHS =>
          this.copyAssign s.world iRHS >>= fun a =>
            pure { s with world := a.1, holders := s.holders.set l (some a.2) }) = .ok u := hstep
      cases hl : object s.holders l with
      | error e =>
        rw [hl] at hassign
        cases hassign
      | ok this =>
        rw [hl, ho] at hassign
        simp only [bind, Except.bind, WaitingTaskHolder.copyAssign, hfails] at hassign
        cases hassign
    | _ => cases hop

/-- Nothing is seen of an arena. -/
lemma simulates_arena {item : ℕ × Option ℕ × ℕ} (hs : Simulates s s')
    (hstep : step s' (.arena item) = .ok u') : Simulates s u' := by
  obtain ⟨hw, hl, hanswers⟩ := hs
  obtain ⟨a, g, t⟩ := item
  simp only [step] at hstep
  split at hstep
  next hmem =>
    cases g with
    | none => cases hstep
    | some g =>
      obtain rfl := Except.ok.inj hstep
      exact ⟨⟨hw.tasks, hw.executed, hw.waiting.trans (waiting_enqueued hmem).symm, hw.enqueued⟩,
        hl, hanswers⟩
  next => cases hstep

/-- A group executes the same task for both. -/
lemma simulates_group {item : ℕ × ℕ} (hs : Simulates s s') (hmem : item ∈ s.world.run)
    (hmem' : item ∈ s'.world.run) : Lockstep Simulates (step s (.group item)) (step s' (.group item)) := by
  obtain ⟨hw, hl, hanswers⟩ := hs
  simp only [step, if_pos hmem, if_pos hmem']
  apply (task_lockstep hw (some item.2)).bind
  rintro ⟨t, m⟩ _ rfl
  refine .ok ⟨⟨?_, ?_, ?_, hw.enqueued⟩, hl, hanswers⟩
  · exact congrArg (·.set t none) hw.tasks
  · exact congrArg (· ++ [(t, m.uncheckedExceptionPtr)]) hw.executed
  · -- the executed task is taken out of both lists of what waits
    have hall := ((waiting_run hmem).symm.trans hw.waiting).trans (waiting_run hmem')
    exact hall.cons_inv

/-- What waits for a `WaitingTaskHolder` waits in its group. -/
lemma mem_run_of_waiting (hw : SameWorld w w') {g t : ℕ} :
    (g, t) ∈ w.run ↔ (some g, t) ∈ w'.waiting := by
  rw [← hw.waiting.mem_iff]
  simp [World.waiting, hw.enqueued]

/-- An event of the second class is the same event of the first one, or is not seen. -/
lemma simulates_right (hs : Simulates s s') (hcopies : s'.CopiesTask event)
    (hstep : step s' event = .ok u') :
    ∃ u, ([event].filter Event.visible).foldlM step s = .ok u ∧ Simulates u u' := by
  cases event with
  | call op =>
    have hcall := call_lockstep hs hcopies
    have hop : op.call s' = .ok u' := hstep
    rw [hop] at hcall
    obtain ⟨u, hu, hsim⟩ := hcall.exists_left
    refine ⟨u, ?_, hsim⟩
    show op.call s >>= pure = _
    rw [hu]
    rfl
  | arena item => exact ⟨s, rfl, simulates_arena hs hstep⟩
  | group item =>
    obtain ⟨g, t⟩ := item
    -- an event that returns is of a task that waits, so the first class has it too
    have hmem' : (g, t) ∈ s'.world.run := by
      by_contra hnot
      simp only [step, if_neg hnot] at hstep
      cases hstep
    have hmem : (g, t) ∈ s.world.run := by
      rw [mem_run_of_waiting hs.world]
      exact List.mem_append_right _ (List.mem_map.mpr ⟨(g, t), hmem', rfl⟩)
    have hgroup := simulates_group hs hmem hmem'
    rw [hstep] at hgroup
    obtain ⟨u, hu, hsim⟩ := hgroup.exists_left
    refine ⟨u, ?_, hsim⟩
    show step s (.group (g, t)) >>= pure = _
    rw [hu]
    rfl

/-- An event of the first class is the same event of the second one, perhaps after its arena. -/
lemma simulates_left (hs : Simulates s s') (hstep : step s event = .ok u) :
    ∃ (events : List (Event E)) (u' : State WaitingTaskWithArenaHolder E),
      events.filter Event.visible = [event] ∧ events.foldlM step s' = .ok u' ∧ Simulates u u' := by
  cases event with
  | call op =>
    have hcall := call_lockstep hs (copiesTask_of_ok hs hstep)
    have hop : op.call s = .ok u := hstep
    rw [hop] at hcall
    obtain ⟨u', hu', hsim⟩ := hcall.exists_right
    refine ⟨[.call op], u', rfl, ?_, hsim⟩
    show op.call s' >>= pure = _
    rw [hu']
    rfl
  | arena item =>
    -- there are no arenas
    simp only [step, hs.world.enqueued, List.not_mem_nil, if_false] at hstep
    cases hstep
  | group item =>
    obtain ⟨g, t⟩ := item
    have hmem : (g, t) ∈ s.world.run := by
      by_contra hnot
      simp only [step, if_neg hnot] at hstep
      cases hstep
    -- the task may still be in an arena there: then the arena goes first
    suffices hready : ∃ (arenas : List (Event E)) (v' : State WaitingTaskWithArenaHolder E),
        arenas.filter Event.visible = [] ∧ arenas.foldlM step s' = .ok v' ∧ Simulates s v' ∧
          (g, t) ∈ v'.world.run by
      obtain ⟨arenas, v', hnone, hrun, hsim, hmem'⟩ := hready
      have hgroup := simulates_group hsim hmem hmem'
      rw [hstep] at hgroup
      obtain ⟨u', hu', hsim'⟩ := hgroup.exists_right
      refine ⟨arenas ++ [.group (g, t)], u', ?_, ?_, hsim'⟩
      · rw [List.filter_append, hnone]
        rfl
      · rw [List.foldlM_append, hrun]
        show step v' (.group (g, t)) >>= pure = _
        rw [hu']
        rfl
    rcases List.mem_append.mp ((mem_run_of_waiting hs.world).mp hmem) with hwaits | hwaits
    · obtain ⟨⟨a, g', t'⟩, hitem, heq⟩ := List.mem_map.mp hwaits
      obtain ⟨rfl, rfl⟩ := Prod.mk.inj heq
      have harena : step s' (.arena (a, some g, t')) = .ok { s' with world := { s'.world with
          enqueued := s'.world.enqueued.erase (a, some g, t'), run := s'.world.run ++ [(g, t')] } } := by
        simp only [step, if_pos hitem]
        rfl
      refine ⟨[.arena (a, some g, t')], _, rfl, ?_, simulates_arena hs harena, ?_⟩
      · show step s' (.arena (a, some g, t')) >>= pure = _
        rw [harena]
        rfl
      · exact List.mem_append_right _ (List.mem_singleton.mpr rfl)
    · obtain ⟨⟨g', t'⟩, hitem, heq⟩ := List.mem_map.mp hwaits
      obtain ⟨hg, rfl⟩ := Prod.mk.inj heq
      obtain rfl := Option.some.inj hg
      exact ⟨[], s', rfl, rfl, hs, hitem⟩

/-- Whenever a holder is copied, it has a task. -/
def CopiesOnlyTasks (events : List (Event E)) : Prop :=
  ∀ before event s', before ++ [event] <+: events → run WaitingTaskWithArenaHolder before = .ok s' →
    s'.CopiesTask event

lemma run_append {H : Type} [HolderClass H] (events events' : List (Event E)) :
    run H (events ++ events') = run H events >>= fun s => events'.foldlM step s :=
  List.foldlM_append

/-- One event more: it must be fine where the others lead. -/
lemma copiesOnlyTasks_append (events : List (Event E)) :
    CopiesOnlyTasks (events ++ [event]) ↔ CopiesOnlyTasks events ∧
      ∀ s', run WaitingTaskWithArenaHolder events = .ok s' → s'.CopiesTask event := by
  constructor
  · intro h
    refine ⟨fun before e s' hbegins => h before e s' (hbegins.trans (List.prefix_append _ _)), ?_⟩
    intro s' hs'
    exact h events event s' List.prefix_rfl hs'
  · rintro ⟨h, hlast⟩ before e s' hbegins hrun
    rcases List.prefix_concat_iff.mp hbegins with heq | hbegins
    · obtain ⟨rfl, he⟩ := List.append_inj' heq rfl
      obtain rfl := List.singleton_inj.mp he
      exact hlast s' hrun
    · exact h before e s' hbegins hrun

/-- The last event of a sequence that returns. -/
lemma exists_of_run_append {H : Type} [HolderClass H] {events events' : List (Event E)} {s : State H E}
    (hrun : run H (events ++ events') = .ok s) :
    ∃ t, run H events = .ok t ∧ events'.foldlM step t = .ok s := by
  rw [run_append] at hrun
  cases hbefore : run H events with
  | error e =>
    rw [hbefore] at hrun
    cases hrun
  | ok t =>
    rw [hbefore] at hrun
    exact ⟨t, rfl, hrun⟩

lemma step_of_foldlM {H : Type} [HolderClass H] {s t : State H E}
    (hrun : [event].foldlM step t = .ok s) : step t event = .ok s := by
  have hstep : step t event >>= pure = .ok s := hrun
  rwa [bind_pure] at hstep

/-- If no holder without a task is copied, the first class comes to where the second one is. -/
lemma exists_simulates (events : List (Event E))
    (hrun : run WaitingTaskWithArenaHolder events = .ok s') (hcopies : CopiesOnlyTasks events) :
    ∃ s, run WaitingTaskHolder (events.filter Event.visible) = .ok s ∧ Simulates s s' := by
  induction events using List.reverseRecOn generalizing s' with
  | nil =>
    obtain rfl := Except.ok.inj hrun
    exact ⟨{}, rfl, ⟨rfl, rfl, List.Perm.nil, rfl⟩, .nil, rfl⟩
  | append_singleton events event ih =>
    obtain ⟨t', hbefore, hlast⟩ := exists_of_run_append hrun
    obtain ⟨hcopies, hcopiesLast⟩ := (copiesOnlyTasks_append events).mp hcopies
    obtain ⟨t, ht, hsim⟩ := ih hbefore hcopies
    obtain ⟨s, hs, hsim'⟩ := simulates_right hsim (hcopiesLast t' hbefore) (step_of_foldlM hlast)
    refine ⟨s, ?_, hsim'⟩
    rw [List.filter_append, run_append, ht]
    exact hs

/-- If the first class comes through the same events, it is where the second one is, and no holder
without a task was copied. -/
lemma simulates_of_run (events : List (Event E))
    (hrun' : run WaitingTaskWithArenaHolder events = .ok s')
    (hrun : run WaitingTaskHolder (events.filter Event.visible) = .ok s) :
    Simulates s s' ∧ CopiesOnlyTasks events := by
  induction events using List.reverseRecOn generalizing s s' with
  | nil =>
    obtain rfl := Except.ok.inj hrun'
    obtain rfl := Except.ok.inj hrun
    refine ⟨⟨⟨rfl, rfl, List.Perm.nil, rfl⟩, .nil, rfl⟩, ?_⟩
    intro before event s' hbegins
    simp at hbegins
  | append_singleton events event ih =>
    rw [List.filter_append] at hrun
    obtain ⟨t', hbefore', hlast'⟩ := exists_of_run_append hrun'
    obtain ⟨t, hbefore, hlast⟩ := exists_of_run_append hrun
    obtain ⟨hsim, hcopies⟩ := ih hbefore' hbefore
    have hcopiesLast : t'.CopiesTask event := by
      cases event with
      | arena item => trivial
      | call op => exact copiesTask_of_ok hsim (step_of_foldlM hlast)
      | group item => trivial
    obtain ⟨u, hu, hsim'⟩ := simulates_right hsim hcopiesLast (step_of_foldlM hlast')
    obtain rfl := Except.ok.inj (hlast.symm.trans hu)
    refine ⟨hsim', (copiesOnlyTasks_append events).mpr ⟨hcopies, ?_⟩⟩
    intro v' hv'
    obtain rfl := Except.ok.inj (hbefore'.symm.trans hv')
    exact hcopiesLast

/-- Every sequence of the first class is one of the second one. -/
lemma exists_right (events : List (Event E)) (hrun : run WaitingTaskHolder events = .ok s) :
    ∃ (events' : List (Event E)) (s' : State WaitingTaskWithArenaHolder E),
      events'.filter Event.visible = events ∧ run WaitingTaskWithArenaHolder events' = .ok s' ∧
        Simulates s s' := by
  induction events using List.reverseRecOn generalizing s with
  | nil =>
    obtain rfl := Except.ok.inj hrun
    exact ⟨[], {}, rfl, rfl, ⟨rfl, rfl, List.Perm.nil, rfl⟩, .nil, rfl⟩
  | append_singleton events event ih =>
    obtain ⟨t, hbefore, hlast⟩ := exists_of_run_append hrun
    obtain ⟨events', t', hvisible, hrun', hsim⟩ := ih hbefore
    obtain ⟨more, s', hmore, hlast', hsim'⟩ := simulates_left hsim (step_of_foldlM hlast)
    refine ⟨events' ++ more, s', ?_, ?_, hsim'⟩
    · rw [List.filter_append, hvisible, hmore]
    · rw [run_append, hrun']
      exact hlast'

/-! ## Agreement -/

/-- What is seen of the two classes is the same: of every holder whether it has a task, the tasks with
their reference counts and exceptions, which tasks were executed with which exception and which ones
wait for that, and what `taskHasFailed` returned. -/
structure Agree (s : State WaitingTaskHolder E) (s' : State WaitingTaskWithArenaHolder E) : Prop where
  hasTask : s.holders.map (Option.map WaitingTaskHolder.hasTask)
    = s'.holders.map (Option.map WaitingTaskWithArenaHolder.hasTask)
  tasks : s.world.tasks = s'.world.tasks
  executed : s.world.executed = s'.world.executed
  waiting : s.world.waiting.Perm s'.world.waiting
  answers : s.answers = s'.answers

/-- The same holders have tasks on both sides. -/
lemma hasTask_of_matchesAll (hl : MatchesAll l l') :
    l.map (Option.map WaitingTaskHolder.hasTask)
      = l'.map (Option.map WaitingTaskWithArenaHolder.hasTask) := by
  induction hl with
  | nil => rfl
  | cons ho _ ih =>
    rw [List.map_cons, List.map_cons, ih]
    cases ho with
    | none => rfl
    | some hm => rw [Option.map_some, Option.map_some, hm.hasTask]

/-- In step the two sides cannot be told apart. -/
lemma Simulates.agree (hs : Simulates s s') : Agree s s' :=
  ⟨hasTask_of_matchesAll hs.holders, hs.world.tasks, hs.world.executed, hs.world.waiting, hs.answers⟩

/-- **The two classes agree, but for copies of holders without a task.** A
`WaitingTaskWithArenaHolder` never calls a member function through a bad pointer. Through the same
events a `WaitingTaskHolder` comes to the same state if and only if no holder without a task was
copied. Every sequence of events of a `WaitingTaskHolder` is one of a `WaitingTaskWithArenaHolder`,
with the same end. -/
theorem holders_agree_iff :
    (∀ events : List (Event E),
      run (E := E) WaitingTaskWithArenaHolder events ≠ .error .badPointer) ∧
    (∀ (events : List (Event E)) s', run WaitingTaskWithArenaHolder events = .ok s' →
      ((∃ s, run WaitingTaskHolder (events.filter Event.visible) = .ok s ∧ Agree s s') ↔
        CopiesOnlyTasks events)) ∧
    (∀ (events : List (Event E)) s, run WaitingTaskHolder events = .ok s →
      ∃ (events' : List (Event E)) (s' : State WaitingTaskWithArenaHolder E),
        events'.filter Event.visible = events ∧ run WaitingTaskWithArenaHolder events' = .ok s' ∧
          Agree s s') := by
  refine ⟨?_, ?_, ?_⟩
  · intro events hbad
    have hensures := counted events
    rw [hbad] at hensures
    cases hensures
  · intro events s' hrun
    constructor
    · rintro ⟨s, hs, -⟩
      exact (simulates_of_run events hrun hs).2
    · intro hcopies
      obtain ⟨s, hs, hsim⟩ := exists_simulates events hrun hcopies
      exact ⟨s, hs, hsim.agree⟩
  · intro events s hrun
    obtain ⟨events', s', hvisible, hrun', hsim⟩ := exists_right events hrun
    exact ⟨events', s', hvisible, hrun', hsim.agree⟩

/-- A holder is copied, the copy reports a failure and the first one is assigned an empty one; the task
is executed with the exception. -/
def shared : List (Event ℕ) :=
  [.call .newTask, .call (.construct 4 1 0), .call (.copy 0), .call .default,
    .call (.doneWaiting 1 (some 7)), .call (.taskHasFailed 0), .call (.moveAssign 0 2),
    .arena (4, some 1, 0), .group (1, 0)]

theorem holders_agree_iff_shared : CopiesOnlyTasks shared ∧
    ∃ s', run WaitingTaskWithArenaHolder shared = .ok s' ∧ s'.world.executed = [(0, some 7)] ∧
      s'.answers = [true] :=
  ⟨(holders_agree_iff.2.1 shared _ rfl).mp ⟨_, rfl, rfl, rfl, rfl, .nil, rfl⟩, _, rfl, rfl, rfl⟩

/-- The copy of a default-constructed holder is a call of `increment_ref_count` through a null pointer
for one of the classes. -/
theorem emptyCopied_differs :
    ¬ ∀ (events : List (Event ℕ)) s', run WaitingTaskWithArenaHolder events = .ok s' →
      ∃ s, run WaitingTaskHolder (events.filter Event.visible) = .ok s ∧ Agree s s' := by
  intro hall
  obtain ⟨s, hs, -⟩ := hall [.call .default, .call (.copy 0)] _ rfl
  have hbad : run (E := ℕ) WaitingTaskHolder [.call .default, .call (.copy 0)]
      = .error .badPointer := rfl
  cases hbad.symm.trans hs

end UnifyPrototype.Holders
