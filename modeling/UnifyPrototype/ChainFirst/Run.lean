import UnifyPrototype.ChainFirst.Stages

/-!
# A chain means its left fold

Each step keeps the invariant of the stages, and what it says when nothing is left to do is the
fold.
-/

namespace UnifyPrototype.ChainFirst

open UnifyPrototype.Utils

variable {N E : Type} {s s' : State N E} {l : List (Stage N)} {x y : Option E} {L k t : ℕ} {e : E}
  {p : Point E}

/-! ## The handlers -/

/-- Who forwards an exception is alone. -/
lemma points_eq_of_forwards (h : s.Forwards t y) (hk : s.points[k]? = some p) :
    s.points = [p] ∧ k = 0 := by
  have hsingle : ∀ q : Point E, s.points = [q] → s.points = [p] ∧ k = 0 := by
    intro q hq
    rw [hq] at hk ⊢
    cases k with
    | zero => exact ⟨congrArg (fun q => [q]) (Option.some.inj hk), rfl⟩
    | succ k => simp at hk
  rcases h.2.2 with ⟨e, -, hq, -⟩ | ⟨hq | hq, -⟩
  · exact hsingle _ hq
  · rw [hq] at hk
    cases hk
  · exact hsingle _ hq

/-- Who runs a functor is alone, and does not forward. -/
lemma points_eq_of_collects (h : s.Collects l x L t) (hk : s.points[k]? = some p) :
    s.points = [p] ∧ k = 0 ∧ ∀ e, p ≠ .forward t e := by
  rcases h.2.2 with hnil | ⟨q, hq, -, hne⟩
  · rw [hnil] at hk
    cases hk
  · rw [hq] at hk ⊢
    cases k with
    | zero =>
      obtain rfl : q = p := Option.some.inj hk
      exact ⟨rfl, rfl, hne⟩
    | succ k => simp at hk

/-- There is one handler at work, and it uses a holder of the current task. -/
lemma State.Folds.point (h : s.Folds l x L) (hk : s.points[k]? = some p) :
    p.task + L = l.length ∧ s.points = [p] ∧ k = 0 := by
  have ht := h.points p (List.mem_of_getElem? hk)
  refine ⟨ht, ?_⟩
  rcases (h.current _ ht).phase with hforwards | hcollects
  · exact points_eq_of_forwards hforwards hk
  · obtain ⟨hp, hzero, -⟩ := points_eq_of_collects hcollects hk
    exact ⟨hp, hzero⟩

/-- With a holder left the task is not handed to the group. -/
lemma State.Current.group_eq_nil (h : s.Current l x L t) (hpos : (s.task t).refCount ≠ 0) :
    s.group = [] :=
  h.group.trans (if_neg hpos)

/-- The pending exception reaches the next task. -/
lemma folds_forward (h : s.Folds l x L) (hk : s.points[k]? = some (.forward t e)) :
    (State.goto k (s.setTask t (dependentTaskFailed (s.task t) e), some (.release t))).Folds l x L := by
  obtain ⟨ht, hp, rfl⟩ := h.point hk
  change t + L = l.length at ht
  have hcurrent := h.current t ht
  -- a point that forwards a failure belongs to a lambda that has called nothing yet
  have hforwards : s.Forwards t (before l x (s.failure l.length) L) := by
    rcases hcurrent.phase with hforwards | hcollects
    · exact hforwards
    · exact absurd rfl ((points_eq_of_collects hcollects hk).2.2 e)
  obtain ⟨hheld, hreports, ⟨e', hy, hq, hholds⟩ | ⟨hq | hq, -⟩⟩ := hforwards
  · obtain ⟨-, rfl⟩ := by simpa using hq.symm.trans hp
    have hset := hholds.dependentTaskFailed e
    have hpoints : (State.goto 0 (s.setTask t (dependentTaskFailed (s.task t) e),
        some (.release t))).points = [.release t] := by
      show s.points.set 0 (.release t) = _
      rw [hp]
      rfl
    have hcount := hcurrent.count
    have hgroup := hcurrent.group
    refine h.moved ht rfl (fun t' hne => ⟨task_setTask_of_ne s _ hne, rfl, rfl⟩) ?_ ?_ fun _ =>
      ⟨?_, ?_, .inl ⟨hheld, hreports, .inr ⟨.inr hpoints, ?_⟩⟩⟩
    · rw [hpoints]
      simp [Point.task]
    · intro t' ht'
      have hmem : t' ∈ s.group := ht'
      rw [hgroup] at hmem
      split at hmem
      · exact List.mem_singleton.mp hmem
      · cases hmem
    · rw [hpoints]
      show ((s.setTask t (dependentTaskFailed (s.task t) e)).task t).refCount = s.held t + 1
      rw [task_setTask, refCount_dependentTaskFailed, hcount, hp]
      rfl
    · show s.group
        = if ((s.setTask t (dependentTaskFailed (s.task t) e)).task t).refCount = 0 then [t] else []
      rw [task_setTask, refCount_dependentTaskFailed]
      exact hgroup
    · show Holds ((s.setTask t (dependentTaskFailed (s.task t) e)).task t)
        (before l x (s.failure l.length) L)
      rw [task_setTask, hy]
      exact hset
  · cases hq.symm.trans hp
  · cases hq.symm.trans hp

/-- A failure of a functor reaches the task. -/
lemma folds_report (h : s.Folds l x L) (ht : t + L = l.length) (hcollects : s.Collects l x L t)
    (e : E) {points : List (Point E)} (hlength : points.length = s.points.length)
    (hpoints : points = [] ∨ ∃ p, points = [p] ∧ p.task = t ∧ ∀ e, p ≠ .forward t e) :
    ({ s.report t e with points := points } : State N E).Folds l x L := by
  have hcurrent := h.current t ht
  have hset := hcollects.2.1.dependentTaskFailed e
  have htask : (s.report t e).task t = dependentTaskFailed (s.task t) e := task_setTask s t _
  refine h.moved ht rfl (fun t' hne => ⟨task_setTask_of_ne s _ hne, rfl,
    Function.update_of_ne hne _ _⟩) ?_ ?_ fun hbefore => ⟨?_, ?_, .inr ⟨hcollects.runs hbefore, ?_,
      hpoints⟩⟩
  · intro p hp
    rcases hpoints with rfl | ⟨q, rfl, hq, -⟩
    · cases hp
    · obtain rfl := List.mem_singleton.mp hp
      exact hq
  · intro t' ht'
    have hmem : t' ∈ s.group := ht'
    rw [hcurrent.group] at hmem
    split at hmem
    · exact List.mem_singleton.mp hmem
    · cases hmem
  · show ((s.report t e).task t).refCount = s.held t + points.length
    rw [htask, refCount_dependentTaskFailed, hlength]
    exact hcurrent.count
  · show s.group = if ((s.report t e).task t).refCount = 0 then [t] else []
    rw [htask, refCount_dependentTaskFailed]
    exact hcurrent.group
  · show Holds ((s.report t e).task t) (Function.update s.reports t (s.reports t ++ [e]) t).head?
    rw [htask, Function.update_self, head?_append_report]
    exact hset

/-- The handler is done with the holder of its task. -/
lemma folds_release (h : s.Folds l x L) (hk : s.points[k]? = some (.release t)) :
    (State.goto k (s.decrement t, none)).Folds l x L := by
  obtain ⟨ht, hp, rfl⟩ := h.point hk
  change t + L = l.length at ht
  have hcurrent := h.current t ht
  have hcount := hcurrent.count
  rw [hp, List.length_singleton] at hcount
  have hgroup := hcurrent.group_eq_nil (by omega)
  have hpoints : (State.goto 0 (s.decrement t, none)).points = [] := by
    show s.points.eraseIdx 0 = []
    rw [hp]
    rfl
  have htask : (State.goto 0 (s.decrement t, none)).task t
      = { s.task t with refCount := (s.task t).refCount - 1 } := Function.update_self _ _ _
  refine h.counted ht rfl (fun t' hne => ⟨Function.update_of_ne hne _ _, rfl⟩) (fun y hy => ?_)
    (by rw [hpoints]; simp) ?_ ?_ ?_
  · rw [htask]
    exact hy
  · rw [htask, hpoints]
    show (s.task t).refCount - 1 = s.held t + 0
    omega
  · rw [htask]
    show (if 0 = (s.task t).refCount - 1 then s.group ++ [t] else s.group) = _
    rw [hgroup]
    simp only [List.nil_append, eq_comm]
  · rcases hcurrent.phase with hforwards | hcollects
    · exact .inl ⟨hforwards, hforwards.1, .inr hp, .inl hpoints⟩
    · exact .inr ⟨hcollects, .inl hpoints⟩

/-- The functor of a `try` has returned or thrown. -/
lemma folds_running (h : s.Folds l x L) (hk : s.points[k]? = some (.running t)) {q : Point E}
    (hq : q.task = t) (hne : ∀ e, q ≠ .forward t e) :
    (State.goto k (s, some q)).Folds l x L := by
  obtain ⟨ht, hp, rfl⟩ := h.point hk
  change t + L = l.length at ht
  have hcurrent := h.current t ht
  have hpoints : (State.goto 0 (s, some q)).points = [q] := by
    show s.points.set 0 q = [q]
    rw [hp]
    rfl
  refine h.counted ht rfl (fun t' hne => ⟨rfl, rfl⟩) (fun y hy => hy) ?_ ?_ hcurrent.group ?_
  · rw [hpoints]
    simp [hq]
  · rw [hpoints]
    show (s.task t).refCount = s.held t + 1
    rw [hcurrent.count, hp]
    rfl
  · rcases hcurrent.phase with hforwards | hcollects
    · rcases hforwards.2.2 with ⟨e, -, hf, -⟩ | ⟨hf | hf, -⟩ <;> cases hf.symm.trans hp
    · exact .inr ⟨hcollects, .inr ⟨q, hpoints, hq, hne⟩⟩

/-! ## The holders of the functors -/

/-- A functor copies a holder of the task it was given. -/
lemma folds_copy (h : s.Folds l x L) (hheld : s.held t ≠ 0) :
    ((s.increment t).give t).Folds l x L := by
  obtain ⟨ht, hcollects⟩ := h.of_held hheld
  have hcurrent := h.current t ht
  have hcount := hcurrent.count
  have hgroup := hcurrent.group_eq_nil (by omega)
  have htask : ((s.increment t).give t).task t = (s.task t).incrementRefCount :=
    Function.update_self _ _ _
  have hgiven : ((s.increment t).give t).held t = s.held t + 1 := Function.update_self _ _ _
  refine h.counted ht rfl (fun t' hne => ⟨Function.update_of_ne hne _ _,
    Function.update_of_ne hne _ _⟩) (fun y hy => ?_) (fun p hp => ?_) ?_ ?_
    (.inr ⟨hcollects, hcollects.2.2⟩)
  · rw [htask]
    exact hy
  · have hown := h.points p hp
    omega
  · rw [htask, hgiven]
    show (s.task t).refCount + 1 = s.held t + 1 + s.points.length
    omega
  · rw [htask]
    exact hgroup

/-- A functor lets go of a holder, and the last one hands the task to the group. -/
lemma folds_letGo (h : s.Folds l x L) (hheld : s.held t ≠ 0) :
    ({ s.decrement t with held := Function.update s.held t (s.held t - 1) } : State N E).Folds
      l x L := by
  obtain ⟨ht, hcollects⟩ := h.of_held hheld
  have hcurrent := h.current t ht
  have hcount := hcurrent.count
  have hgroup := hcurrent.group_eq_nil (by omega)
  have htask : (s.decrement t).task t
      = { s.task t with refCount := (s.task t).refCount - 1 } := Function.update_self _ _ _
  refine h.counted ht rfl (fun t' hne => ⟨Function.update_of_ne hne _ _,
    Function.update_of_ne hne _ _⟩) (fun y hy => ?_) (fun p hp => ?_) ?_ ?_
    (.inr ⟨hcollects, hcollects.2.2⟩)
  · show Holds ((s.decrement t).task t) y
    rw [htask]
    exact hy
  · have hown := h.points p hp
    omega
  · show ((s.decrement t).task t).refCount
      = Function.update s.held t (s.held t - 1) t + s.points.length
    rw [htask, Function.update_self]
    show (s.task t).refCount - 1 = _
    omega
  · show (if 0 = (s.task t).refCount - 1 then s.group ++ [t] else s.group)
      = if ((s.decrement t).task t).refCount = 0 then [t] else []
    rw [htask, hgroup]
    simp only [List.nil_append, eq_comm]

/-! ## The execution of a task -/

/-- The state in which the functor of the current task is called. -/
def State.begin (s : State N E) (t : ℕ) (y : Option E) : State N E :=
  { s with group := [], started := s.started ++ [(t, y)] }

/-- The stage forwards the exception to the next task. -/
lemma folds_next_forward (h : s.Folds l x L) (ht : t + L = l.length)
    (hzero : (s.task t).refCount = 0) (hheld : s.held t = 0) {v : ℕ} (hv : v + (L + 1) = l.length)
    (hnext : before l x (s.failure l.length) (L + 1) = some e)
    (hy : y = before l x (s.failure l.length) L) :
    ({ s.begin t y with
        calls := callsBefore l x (s.failure l.length) (L + 1)
        points := [.forward v e] } : State N E).Folds l x (L + 1) := by
  obtain ⟨htask, hreports⟩ := h.later v (by omega)
  have hfree : s.held v = 0 := h.held v (by omega)
  refine h.next ht hzero hheld rfl (by rw [hy]; rfl) rfl (fun _ _ => ⟨rfl, rfl⟩) ?_ rfl fun t' ht' => ?_
  · simpa [Point.task] using hv
  · obtain rfl : t' = v := by omega
    refine ⟨?_, ?_, .inl ⟨hfree, hreports, .inl ⟨e, hnext, rfl, ?_⟩⟩⟩
    · show (s.task t').refCount = s.held t' + 1
      rw [htask, hfree]
    · show [] = if (s.task t').refCount = 0 then [t'] else []
      rw [htask]
      rfl
    · show Holds (s.task t') none
      rw [htask]
      exact ⟨rfl, rfl⟩

/-- The functor of the stage gets a holder of the next task. -/
lemma folds_next_collect (h : s.Folds l x L) (ht : t + L = l.length)
    (hzero : (s.task t).refCount = 0) (hheld : s.held t = 0) {v : ℕ} (hv : v + (L + 1) = l.length)
    {f : Stage N} (hf : l[L]? = some f) (hy : y = before l x (s.failure l.length) L)
    (houtcome : ∀ o, f.outcome y o = o) (points : List (Point E))
    (hpoints : points = [] ∨ points = [.running v]) :
    ({ s.begin t y with
        calls := callsBefore l x (s.failure l.length) (L + 1)
        task := Function.update s.task v { refCount := 1 + points.length }
        held := Function.update s.held v 1
        points := points } : State N E).Folds l x (L + 1) := by
  obtain ⟨-, hreports⟩ := h.later v (by omega)
  refine h.next ht hzero hheld rfl (by rw [hy]; rfl) rfl (fun t' ht' => ?_) ?_ rfl fun t' ht' => ?_
  · have hne : t' ≠ v := by omega
    exact ⟨Function.update_of_ne hne _ _, Function.update_of_ne hne _ _⟩
  · rcases hpoints with rfl | rfl
    · simp
    · simpa [Point.task] using hv
  · obtain rfl : t' = v := by omega
    refine ⟨?_, ?_, .inr ⟨⟨L, f, rfl, hf, hy ▸ houtcome⟩, ?_, ?_⟩⟩
    · show (Function.update s.task t' { refCount := 1 + points.length } t').refCount
        = Function.update s.held t' 1 t' + points.length
      rw [Function.update_self, Function.update_self]
    · show [] = if (Function.update s.task t' { refCount := 1 + points.length } t').refCount = 0
        then [t'] else []
      rw [Function.update_self, if_neg (by simp)]
    · show Holds (Function.update s.task t' { refCount := 1 + points.length } t')
        (s.reports t').head?
      rw [Function.update_self, hreports]
      exact ⟨rfl, rfl⟩
    · rcases hpoints with rfl | rfl
      · exact .inl rfl
      · exact .inr ⟨_, rfl, rfl, by simp⟩

/-- The group executes the next task, which begins the next stage. -/
lemma folds_execute (h : s.Folds l x L) (hk : s.group[k]? = some t) :
    (State.execute { s with group := s.group.eraseIdx k } t).Folds l x (L + 1) := by
  have ht := h.group t (List.mem_of_getElem? hk)
  have hcurrent := h.current t ht
  have hcount := hcurrent.count
  obtain ⟨hzero, rfl, hgroup⟩ : (s.task t).refCount = 0 ∧ k = 0 ∧ s.group = [t] := by
    have hgroup := hcurrent.group
    split at hgroup
    next hzero =>
      refine ⟨hzero, ?_, hgroup⟩
      rw [hgroup] at hk
      cases k with
      | zero => rfl
      | succ k => simp at hk
    next =>
      rw [hgroup] at hk
      cases hk
  have hheld : s.held t = 0 := by omega
  have hpoints : s.points = [] := List.eq_nil_of_length_eq_zero (by omega)
  have hptr : (s.task t).uncheckedExceptionPtr = before l x (s.failure l.length) L :=
    (hcurrent.holds ht (.inl hpoints)).1
  have hbegin : ({ s with
        group := s.group.eraseIdx 0
        started := s.started ++ [(t, (s.task t).uncheckedExceptionPtr)] } : State N E)
      = s.begin t (before l x (s.failure l.length) L) := by
    rw [hptr, hgroup]
    rfl
  rcases Nat.lt_or_ge L l.length with hlt | hge
  · -- the task of a stage
    have hf := List.getElem?_eq_getElem hlt
    have hindex : l.length - L = t := by omega
    have hlambda := h.lambda L _ hf
    rw [hindex] at hlambda
    have hv : l.length - (L + 1) + (L + 1) = l.length := by omega
    have hcalls : callsBefore l x (s.failure l.length) (L + 1) = _ := callsBefore_succ hf
    rw [← h.calls] at hcalls
    have hsucc : before l x (s.failure l.length) (L + 1) = _ := before_succ hf
    obtain ⟨htask, hreports⟩ := h.later (l.length - (L + 1)) (by omega)
    have hnone : s.failure l.length L = none := by
      rw [State.failure, hreports]
      rfl
    have hfree : s.held (l.length - (L + 1)) = 0 := h.held _ (by omega)
    have hexecute : State.execute { s with group := s.group.eraseIdx 0 } t
        = (s.begin t (before l x (s.failure l.length) L)).handle l[L].handler
          (before l x (s.failure l.length) L) (l.length - (L + 1)) := by
      simp only [State.execute, hlambda]
      rw [hbegin, hptr]
    rw [hexecute]
    generalize hy : before l x (s.failure l.length) L = y at hcalls hsucc
    generalize hstage : l[L] = f at hf hcalls hsucc
    generalize l.length - (L + 1) = v at hv htask hfree
    have hforward := fun e hnext =>
      folds_next_forward (e := e) (y := y) h ht hzero hheld hv hnext hy.symm
    have hcollect := fun houtcome (points : List (Point E)) hpoints =>
      folds_next_collect (y := y) h ht hzero hheld hv hf hy.symm houtcome points hpoints
    have hsame : (s.task v).incrementRefCount = { refCount := 1 + 1 } := by
      rw [htask]
      rfl
    have hold : Function.update s.task v { refCount := 1 + 0 } = s.task := by
      rw [← htask, Function.update_eq_self]
    cases f with
    | oneArgument g =>
      cases y with
      | some e =>
        have hnext := hforward e hsucc
        rw [hcalls] at hnext
        simpa [Stage.handler, Stage.calls, State.handle, State.addPoint, State.begin, hpoints]
          using hnext
      | none =>
        have hnext := hcollect (fun _ => rfl) [.running v] (.inr rfl)
        rw [hcalls] at hnext
        simpa [Stage.handler, Stage.calls, State.handle, State.invoke, State.addPoint, State.addCall,
          State.give, State.increment, State.setTask, State.begin, hpoints, hfree, hsame] using hnext
    | ifException except g =>
      cases y with
      | some e =>
        have hnext := hforward e hsucc
        rw [hcalls] at hnext
        simpa [Stage.handler, Stage.calls, State.handle, State.addPoint, State.addCall, State.begin,
          hpoints] using hnext
      | none =>
        have hnext := hcollect (fun _ => rfl) [.running v] (.inr rfl)
        rw [hcalls] at hnext
        simpa [Stage.handler, Stage.calls, State.handle, State.invoke, State.addPoint, State.addCall,
          State.give, State.increment, State.setTask, State.begin, hpoints, hfree, hsame] using hnext
    | twoArguments g =>
      have hnext := hcollect (fun _ => rfl) [] (.inl rfl)
      rw [hcalls, List.length_nil, hold] at hnext
      simpa [Stage.handler, Stage.calls, State.handle, State.addCall, State.give, State.begin,
        hpoints, hfree] using hnext
  · -- the last task
    obtain rfl : t = 0 := by omega
    have hlength : L = l.length := by omega
    have hexecute : State.execute { s with group := s.group.eraseIdx 0 } 0
        = s.begin 0 (before l x (s.failure l.length) L) := by
      simp only [State.execute, h.bottom]
      rw [hbegin]
    rw [hexecute]
    refine h.next ht hzero hheld rfl rfl ?_ (fun _ _ => ⟨rfl, rfl⟩) ?_ rfl fun t' ht' => by omega
    · have hnone : l[L]? = none := List.getElem?_eq_none hge
      show s.calls = _
      rw [h.calls]
      simp [callsBefore, hnone]
    · intro p hp
      have hmem : p ∈ s.points := hp
      rw [hpoints] at hmem
      cases hmem

/-! ## Every step -/

/-- Each step goes on with the stage it is at or begins the next one. -/
lemma folds_step {b : Label E} (h : s.Folds l x L) (hstep : step s b = some s') :
    ∃ L, s'.Folds l x L := by
  cases b with
  | group k =>
    obtain ⟨t, hk, rfl⟩ := Option.map_eq_some_iff.mp hstep
    exact ⟨L + 1, folds_execute h hk⟩
  | advance k =>
    obtain ⟨p, hk, hstep⟩ := Option.bind_eq_some_iff.mp hstep
    refine ⟨L, ?_⟩
    cases p with
    | forward t e =>
      obtain rfl := Option.some.inj hstep
      exact folds_forward h hk
    | running t => cases hstep
    | caught t e =>
      obtain rfl := Option.some.inj hstep
      obtain ⟨ht, hp, rfl⟩ := h.point hk
      -- a lambda that has thrown is at its `caught` point, so nothing was forwarded
      have hcollects : s.Collects l x L t := by
        rcases (h.current t ht).phase with hforwards | hcollects
        · rcases hforwards.2.2 with ⟨e, -, hf, -⟩ | ⟨hf | hf, -⟩ <;> cases hf.symm.trans hp
        · exact hcollects
      have hpoints : (s.report t e).points.set 0 (.release t) = [.release t] := by
        show s.points.set 0 (.release t) = _
        rw [hp]
        rfl
      have hlength : [Point.release (E := E) t].length = s.points.length := by
        rw [hp]
        rfl
      show ({ s.report t e with points := (s.report t e).points.set 0 (.release t) } :
        State N E).Folds l x L
      rw [hpoints]
      exact folds_report h ht hcollects e hlength (.inr ⟨_, rfl, rfl, by simp⟩)
    | release t =>
      obtain rfl := Option.some.inj hstep
      exact folds_release h hk
  | returns k =>
    simp only [step] at hstep
    split at hstep
    next t hk =>
      obtain rfl := Option.some.inj hstep
      exact ⟨L, folds_running h hk rfl (by simp)⟩
    next => cases hstep
  | throws k e =>
    simp only [step] at hstep
    split at hstep
    next t hk =>
      obtain rfl := Option.some.inj hstep
      exact ⟨L, folds_running h hk rfl (by simp)⟩
    next => cases hstep
  | copy t =>
    simp only [step] at hstep
    split at hstep
    next => cases hstep
    next hheld =>
      obtain rfl := Option.some.inj hstep
      exact ⟨L, folds_copy h hheld⟩
  | report t e =>
    simp only [step] at hstep
    split at hstep
    next => cases hstep
    next hheld =>
      obtain rfl := Option.some.inj hstep
      obtain ⟨ht, hcollects⟩ := h.of_held hheld
      exact ⟨L, folds_report h ht hcollects e rfl hcollects.2.2⟩
  | letGo t =>
    simp only [step] at hstep
    split at hstep
    next => cases hstep
    next hheld =>
      obtain rfl := Option.some.inj hstep
      exact ⟨L, folds_letGo h hheld⟩

/-- At the start the first stage has not begun. -/
lemma folds_start (f : Stage N) (links : List (Link N)) (x : Option E) :
    ((chainOf f links).start x).Folds (stages f links) x 0 := by
  have hbuilt := built_lastTask (s := (initial : State N E)) (v := 0) (chainOf f links) rfl le_rfl
  unfold WaitingTaskChain.start
  generalize (chainOf f links).lastTask initial 0 = r at hbuilt
  obtain ⟨s₁, h⟩ := r
  have hsize := hbuilt.size
  have hholder := hbuilt.holder
  rw [handlers_chainOf, List.length_map] at hsize
  obtain rfl : h = (stages f links).length := by
    change s₁.size = 1 + _ at hsize
    change h + 1 = s₁.size at hholder
    omega
  -- the tasks above the bottom one are those of the stages, the first stage on top
  have hpos : 0 < (stages f links).length := Nat.succ_pos _
  have hrest := hbuilt.rest
  simp only [Prod.mk.injEq] at hrest
  obtain ⟨hheld, hgroup, hpoints, hstarted, hcalls, hreports⟩ := hrest
  have hnew : ∀ (k : ℕ) (g : Stage N), (stages f links)[k]? = some g →
      s₁.lambda ((stages f links).length - k)
          = some ⟨g.handler, (stages f links).length - (k + 1)⟩ ∧
        s₁.task ((stages f links).length - k) = { refCount := 1 } := by
    intro k g hk
    refine hbuilt.new k g.handler ?_
    rw [handlers_chainOf, List.getElem?_map, hk]
    rfl
  have hbottom := hbuilt.old 0 Nat.one_pos
  -- each task is held once: by the lambda above it, the top one by the caller
  have htask : ∀ t ≤ (stages f links).length, s₁.task t = { refCount := 1 } := by
    intro t ht
    rcases Nat.eq_zero_or_pos t with rfl | hpos
    · exact hbottom.2
    · have hk := List.getElem?_eq_getElem
        (show (stages f links).length - t < (stages f links).length by omega)
      have hone := (hnew _ _ hk).2
      rwa [Nat.sub_sub_self ht] at hone
  have hone : (s₁.addPoint (doneWaiting (stages f links).length x)).points
      = [doneWaiting (stages f links).length x] := by
    show s₁.points ++ _ = _
    rw [hpoints]
    rfl
  have hnone : ∀ t, (s₁.addPoint (doneWaiting (stages f links).length x)).held t = 0 := by
    intro t
    show s₁.held t = 0
    rw [hheld]
    rfl
  have hempty : ∀ t, (s₁.addPoint (doneWaiting (stages f links).length x)).reports t = [] := by
    intro t
    show s₁.reports t = []
    rw [hreports]
    rfl
  refine ⟨Nat.zero_le _, hbottom.1, fun k g hk => (hnew k g hk).1, hstarted, hcalls,
    fun t ht => ⟨htask t (by omega), hempty t⟩, fun t hle ht => by omega, fun t _ => hnone t,
    fun p hp => ?_, fun t ht => ?_, fun t ht => ?_⟩
  · rw [hone] at hp
    obtain rfl := List.mem_singleton.mp hp
    cases x <;> rfl
  · change t ∈ s₁.group at ht
    rw [hgroup] at ht
    cases ht
  · obtain rfl : t = (stages f links).length := by omega
    have hcount := htask _ le_rfl
    refine ⟨?_, ?_, .inl ⟨hnone _, hempty _, ?_⟩⟩
    · rw [hone, hnone]
      show (s₁.task _).refCount = 1
      rw [hcount]
    · show s₁.group = if (s₁.task _).refCount = 0 then _ else []
      rw [hcount, hgroup]
      rfl
    · have hslot : Holds (s₁.task (stages f links).length) none := by
        rw [hcount]
        exact ⟨rfl, rfl⟩
      cases x with
      | none => exact .inr ⟨.inr hone, hslot⟩
      | some e => exact .inl ⟨e, rfl, hone, hslot⟩

/-- Everything that was handed out is released, and nothing is under way. -/
def State.Quiet (s : State N E) : Prop :=
  s.points = [] ∧ s.group = [] ∧ ∀ t, s.held t = 0

/-- As many stages have begun as tasks were executed. -/
lemma folds_of_reaches (f : Stage N) (links : List (Link N)) (x : Option E)
    (h : Reaches step ((chainOf f links).start x) s) :
    s.Folds (stages f links) x s.started.length := by
  obtain ⟨L, hfolds⟩ : ∃ L, s.Folds (stages f links) x L :=
    h.invariant (I := fun s => ∃ L, s.Folds (stages f links) x L) ⟨0, folds_start f links x⟩
      fun s₁ _ s₂ hs _ hstep => by
        obtain ⟨L, hs⟩ := hs
        exact folds_step hs hstep
  have hlength : s.started.length = L := by
    rw [hfolds.started, List.length_map, List.length_range]
  rw [hlength]
  exact hfolds

/-- A task without holders is with the group, so in the end all tasks were executed. -/
lemma State.Folds.length_of_quiet (h : s.Folds l x L) (hquiet : s.Quiet) : L = l.length + 1 := by
  obtain ⟨hpoints, hgroup, hheld⟩ := hquiet
  by_contra hne
  have hle := h.le
  have hcurrent := h.current (l.length - L) (by omega)
  have hcount := hcurrent.count
  have hown := hcurrent.group
  rw [hheld, hpoints, List.length_nil, Nat.add_zero] at hcount
  rw [hgroup, if_pos hcount] at hown
  cases hown

/-- **A chain means its left fold.** For a chain of `n` stages that take part, in every state that
some interleaving reaches: the tasks of the stages are executed in the order of the stages, each at
most once, then the last task; each finds the exception that the fold has before its stage, and the
functors called are those of the fold; no holder of a task that was executed is left. When
everything that was handed out is released, the last task was executed once, with the result of the
fold. -/
theorem chain_folds (f : Stage N) (links : List (Link N)) (x : Option E)
    (h : Reaches step ((chainOf f links).start x) s) :
    let l := stages f links
    let failure := s.failure l.length
    s.started.length ≤ l.length + 1 ∧
    s.started = (List.range s.started.length).map
      (fun k => (l.length - k, before l x failure k)) ∧
    s.calls = callsBefore l x failure s.started.length ∧
    (∀ t ≤ l.length, l.length < t + s.started.length →
      (s.task t).refCount = 0 ∧ s.held t = 0 ∧ ∀ p ∈ s.points, p.task ≠ t) ∧
    (s.Quiet → s.started.length = l.length + 1 ∧ s.started[l.length]? =
      some (0, l.zipIdx.foldl (fun x f => f.1.outcome x (failure f.2)) x)) := by
  intro l failure
  have hfolds : s.Folds l x s.started.length := folds_of_reaches f links x h
  refine ⟨hfolds.le, hfolds.started, hfolds.calls, fun t hle ht => ?_, fun hquiet => ?_⟩
  · refine ⟨hfolds.earlier t hle ht, hfolds.held t (by omega), fun p hp hpt => ?_⟩
    have hown := hfolds.points p hp
    omega
  · have hL := hfolds.length_of_quiet hquiet
    refine ⟨hL, ?_⟩
    rw [hL] at hfolds
    rw [hfolds.started, List.getElem?_map, List.getElem?_range (by omega), Option.map_some,
      before_length, Nat.sub_self]

/-- The functors have the references to a task, and one more is the handler's or that of the lambda
before it. -/
lemma State.Folds.refCount_le (h : s.Folds l x L) (ht : t ≤ l.length) :
    (s.task t).refCount ≤ s.held t + 1 := by
  have hpoints : s.points.length ≤ 1 := by
    rcases hp : s.points with _ | ⟨p, ps⟩
    · exact Nat.zero_le _
    · obtain ⟨-, hsingle, -⟩ := h.point (k := 0) (p := p) (by rw [hp]; rfl)
      rw [← hp, hsingle]
      exact Nat.le_refl _
  rcases Nat.lt_trichotomy (t + L) l.length with hlt | heq | hgt
  · rw [(h.later t hlt).1]
    exact Nat.le_add_left _ _
  · rw [(h.current t heq).count]
    omega
  · rw [h.earlier t ht hgt]
    exact Nat.zero_le _

/-- **`m_refCount` does not wrap** while the functors have fewer than `2 ^ 32` holders of a task, with
the handler's and one more that is being made. -/
theorem refCount_shows (f : Stage N) (links : List (Link N)) (x : Option E)
    (h : Reaches step ((chainOf f links).start x) s) (ht : t ≤ (stages f links).length)
    (hfew : s.held t + 2 < 2 ^ 32) {c : BitVec 32} (hc : Shows c (s.task t).refCount) :
    Shows (c + 1#32) (s.task t).incrementRefCount.refCount ∧
      (0 < (s.task t).refCount → Shows (c - 1#32) (s.task t).decrementRefCount.1.refCount ∧
        (0#32 = c - 1#32 ↔ 0 = (s.task t).decrementRefCount.2)) := by
  have hle := (folds_of_reaches f links x h).refCount_le ht
  exact ⟨WaitingTask.Task.incrementRefCount_shows hc (by omega),
    WaitingTask.Task.decrementRefCount_shows hc⟩

/-- A first stage that fails twice, a stage that is left out, one that handles the exception and one
that consumes it. -/
def failingChain : List (Link ℕ) :=
  [.ifThen false (.oneArgument 2), .then (.ifException 3 4), .then (.twoArguments 5)]

def failingRun : List (Label ℕ) :=
  [.advance 0, .group 0, .report 2 7, .throws 0 8, .advance 0, .advance 0, .letGo 2, .group 0,
    .advance 0, .advance 0, .group 0, .letGo 0, .group 0]

theorem chain_folds_failingRun :
    ∃ s, executeAll step ((chainOf (.oneArgument 1) failingChain).start none) failingRun = some s ∧
      s.calls = [.run 1, .except 3 7, .runWith 5 (some 7)] ∧ s.started.length = 4 ∧
      s.started[3]? = some (0, none) := by
  have hrun : ∃ s, executeAll step ((chainOf (.oneArgument 1) failingChain).start none) failingRun
      = some s ∧ s.calls = [.run 1, .except 3 7, .runWith 5 (some 7)] ∧ s.reports 0 = [] ∧
      s.Quiet := by
    refine ⟨_, rfl, by decide, by decide, by decide, by decide, fun t => ?_⟩
    rcases t with _ | _ | _ | _ | t <;> rfl
  obtain ⟨s, hs, hcalls, hreports, hquiet⟩ := hrun
  obtain ⟨-, -, -, -, hall⟩ := chain_folds (.oneArgument 1) failingChain none (.of_executeAll _ hs)
  obtain ⟨hlength, hlast⟩ := hall hquiet
  refine ⟨s, hs, hcalls, hlength, hlast.trans ?_⟩
  -- the last functor has consumed the exception
  show some (0, (s.reports 0).head?) = _
  rw [hreports]
  rfl

end UnifyPrototype.ChainFirst
