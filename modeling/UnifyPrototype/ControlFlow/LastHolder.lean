import UnifyPrototype.ControlFlow.Forest
import UnifyPrototype.ControlFlow.Frames
import UnifyPrototype.Utils.Counters

/-!
# The waiting task runs when the graph is done

Each holder of the waiting task is a parameter of a function that has not returned, or is captured by
a pending leaf task, or is elsewhere. A function with a call to make has its own. So the last holder
is destroyed when nothing is left to be done, and the task is handed to its group then.
-/

namespace UnifyPrototype.ControlFlow

open UnifyPrototype.Utils

variable {g : DecisionGraph} {a : Assignment g} {s : State g} {p p' : Program g} {n : ℕ}

/-! ## The calls are those of the graph -/

/-- The calls that are still to be made. -/
def pending {N : Type} (frames : List (Frame N)) : List (Call N) :=
  frames.flatMap fun f => f.calls.map Prod.fst

/-- The graph and the calls that are still to be made. -/
def Program.base (p : Program g) : State g :=
  { p.graph with agenda := pending p.frames }

@[simp] lemma pending_cons {N : Type} (f : Frame N) (frames : List (Frame N)) :
    pending (f :: frames) = f.calls.map Prod.fst ++ pending frames := rfl

@[simp] lemma pending_append {N : Type} (frames frames' : List (Frame N)) :
    pending (frames ++ frames') = pending frames ++ pending frames' := by
  simp [pending]

@[simp] lemma calls_loop {N : Type} (hasTask : Bool) (calls : List (Call N)) :
    (Frame.loop hasTask calls).calls.map Prod.fst = calls := by
  simp [Frame.loop, Function.comp_def]

/-- The function has done what `r` says: the same graph, whatever the agenda, and the same calls. -/
def Entered.Matches (e : Entered g) (r : State g × List (Call (Fin g.size))) : Prop :=
  (∀ l, { e.graph with agenda := l } = { r.1 with agenda := l }) ∧ pending e.frames = r.2

/-- The graph with its calls, those of the functions below included. -/
lemma Entered.Matches.base {e : Entered g} {r : State g × List (Call (Fin g.size))}
    (h : e.Matches r) (below : List (Frame (Fin g.size))) :
    ({ r.1 with agenda := r.2 ++ pending below } : State g)
      = { e.graph with agenda := pending (e.frames ++ below) } := by
  rw [pending_append, h.2, h.1]

/-- `makeDecisionAsync_` does the same with a holder and without. -/
lemma matches_makeDecisionAsync (hasTask : Bool) (s : State g) (i : Fin g.size)
    (σ : RequestState) (l : List (Call (Fin g.size))) :
    (makeDecisionAsyncWith hasTask s i σ).Matches
      (makeDecisionAsync { s with agenda := l } i σ) := by
  unfold makeDecisionAsyncWith makeDecisionAsync Entered.Matches
  cases hkind : g.kind i with
  | leaf =>
    simp only
    split <;> exact ⟨fun _ => rfl, rfl⟩
  | binary logic left right =>
    refine ⟨fun _ => rfl, ?_⟩
    simp only
    split <;> rfl

/-- `requestDecisionAsync` does the same with a holder and without. -/
lemma matches_requestDecisionAsync (hasTask : Bool) (s : State g) (i : Fin g.size)
    (σ : RequestState) (l : List (Call (Fin g.size))) :
    (requestDecisionAsyncWith hasTask s i σ).Matches
      (requestDecisionAsync { s with agenda := l } i σ) := by
  unfold requestDecisionAsyncWith requestDecisionAsync
  simp only
  split
  · split
    · exact matches_makeDecisionAsync hasTask _ i σ l
    · exact ⟨fun _ => rfl, rfl⟩
  · split
    · split
      · exact matches_makeDecisionAsync hasTask _ i σ l
      · exact ⟨fun _ => rfl, rfl⟩
    · exact ⟨fun _ => rfl, rfl⟩

/-- Sending a decision, with the calls of the frame below. -/
lemma matches_send (hasTask : Bool) (s : State g) (i : Fin g.size) (d : ControlFlowStatus)
    (f : Frame (Fin g.size)) (copies : ℕ) (l : List (Call (Fin g.size))) :
    Entered.Matches
      ⟨(sendDecisionToRequestorsAsyncWith hasTask s i d).1,
        [(sendDecisionToRequestorsAsyncWith hasTask s i d).2, f], copies, []⟩
      ((sendDecisionToRequestorsAsync { s with agenda := l } i d).1,
        (sendDecisionToRequestorsAsync { s with agenda := l } i d).2 ++ f.calls.map Prod.fst) := by
  refine ⟨fun _ => rfl, ?_⟩
  simp [sendDecisionToRequestorsAsyncWith, sendDecisionToRequestorsAsync, State.setNode, pending]

/-- The task was moved to the function that sends. -/
lemma matches_send_moved (hasTask : Bool) (s : State g) (i : Fin g.size) (d : ControlFlowStatus)
    (l : List (Call (Fin g.size))) :
    Entered.Matches
      ⟨(sendDecisionToRequestorsAsyncWith hasTask s i d).1,
        [(sendDecisionToRequestorsAsyncWith hasTask s i d).2, ⟨false, []⟩], 0, []⟩
      (sendDecisionToRequestorsAsync { s with agenda := l } i d) := by
  have hsend := matches_send hasTask s i d ⟨false, []⟩ 0 l
  rwa [List.map_nil, List.append_nil] at hsend

/-- `decisionFromNodeAsync` does the same with a holder and without. -/
lemma matches_decisionFromNodeAsync (hasTask : Bool) (s : State g) (i : Fin g.size)
    (d : ControlFlowStatus) (requestor : Requestor (Fin g.size)) (l : List (Call (Fin g.size))) :
    (decisionFromNodeAsyncWith hasTask s i d requestor).Matches
      (decisionFromNodeAsync { s with agenda := l } i d requestor) := by
  cases requestor with
  | start => exact ⟨fun _ => rfl, rfl⟩
  | node p =>
    cases hkind : g.kind p with
    | leaf => simp [decisionFromNodeAsyncWith, decisionFromNodeAsync, hkind, Entered.Matches, pending]
    | binary logic left right =>
      simp only [decisionFromNodeAsyncWith, decisionFromNodeAsync, hkind, State.setNode]
      by_cases hstatus : ((s.node p).store (i = left) d).runStatus = .inProgress
      · by_cases hcount : ((s.node p).store (i = left) d).decisionsFromComposites = 2
        · simp only [hstatus, hcount, if_true]
          exact matches_send_moved _ _ _ _ _
        · simp only [hstatus, hcount, if_true, if_false]
          split
          · split
            · exact matches_send _ _ _ _ _ _ _
            · exact ⟨fun _ => rfl, rfl⟩
          · split
            · exact matches_send_moved _ _ _ _ _
            · exact ⟨fun _ => rfl, rfl⟩
      · simp only [hstatus, if_false]
        exact ⟨fun _ => rfl, rfl⟩

/-- A call does the same with a holder and without. -/
lemma matches_enter (hasTask : Bool) (s : State g) (c : Call (Fin g.size))
    (l : List (Call (Fin g.size))) :
    (c.enter hasTask s).Matches (c.run { s with agenda := l }) := by
  cases c with
  | request i σ => exact matches_requestDecisionAsync hasTask s i σ l
  | decision requestor i d => exact matches_decisionFromNodeAsync hasTask s i d requestor l

/-- A leaf task does the same with a holder and without. -/
lemma matches_runLeafTask (hasTask : Bool) (s : State g) (i : Fin g.size)
    (l : List (Call (Fin g.size))) :
    (runLeafTaskWith hasTask a s i).Matches (runLeafTask a { s with agenda := l } i) := by
  refine ⟨fun _ => rfl, ?_⟩
  simp [runLeafTaskWith, runLeafTask, sendDecisionToRequestorsAsyncWith,
    sendDecisionToRequestorsAsync, pending]

/-- Holders come and go outside the graph. -/
lemma base_destroy (p : Program g) (hasTask : Bool) : (p.destroy hasTask).base = p.base := by
  cases hasTask <;> rfl

/-- What `enter` gives. -/
lemma enter_eq {hasTask : Bool} {e : Entered g} (h : p.enter hasTask e = some p') :
    p' = { p with
      graph := e.graph
      frames := e.frames ++ p.frames
      captured := p.captured ++ e.captured
      refCount := p.refCount + e.copies } := by
  unfold Program.enter at h
  split at h
  · exact (Option.some.inj h).symm
  · cases h

/-- The outcomes of a step. -/
inductive Program.Steps (a : Assignment g) (p : Program g) : Move → Program g → Prop
  | copy {c calls below} (hframes : p.frames = ⟨true, (c, .copy) :: calls⟩ :: below) :
      Steps a p .call { p with
        graph := (c.enter true p.graph).graph
        frames := (c.enter true p.graph).frames ++ ⟨true, calls⟩ :: below
        captured := p.captured ++ (c.enter true p.graph).captured
        refCount := p.refCount + 1 + (c.enter true p.graph).copies }
  | move {hasTask c calls below} (hframes : p.frames = ⟨hasTask, (c, .move) :: calls⟩ :: below) :
      Steps a p .call { p with
        graph := (c.enter hasTask p.graph).graph
        frames := (c.enter hasTask p.graph).frames ++ ⟨false, calls⟩ :: below
        captured := p.captured ++ (c.enter hasTask p.graph).captured
        refCount := p.refCount + (c.enter hasTask p.graph).copies }
  | ret {hasTask below} (hframes : p.frames = ⟨hasTask, []⟩ :: below) :
      Steps a p .ret ({ p with frames := below }.destroy hasTask)
  | task {k hasTask i} (hframes : p.frames = []) (hcaptured : p.captured[k]? = some hasTask)
      (htask : p.graph.tasks[k]? = some i) {e : Entered g}
      (he : e = runLeafTaskWith hasTask a { p.graph with tasks := p.graph.tasks.eraseIdx k } i) :
      Steps a p (.task k) { p with
        graph := e.graph
        frames := e.frames
        captured := p.captured.eraseIdx k ++ e.captured
        refCount := p.refCount + e.copies }
  | letGo (houtside : p.outside ≠ 0) :
      Steps a p .letGo ({ p with outside := p.outside - 1 }.destroy true)

/-- A move of the program is one of these. -/
lemma Program.steps {m : Move} (h : p.step a m = some p') : p.Steps a m p' := by
  cases m with
  | call =>
    simp only [Program.step] at h
    split at h
    next hasTask c calls below hframes =>
      split at h
      next htrue =>
        subst htrue
        rw [enter_eq h]
        exact .copy hframes
      next => cases h
    next hasTask c calls below hframes =>
      rw [enter_eq h]
      exact .move hframes
    next => cases h
  | ret =>
    simp only [Program.step] at h
    split at h
    next hasTask below hframes =>
      obtain rfl := Option.some.inj h
      exact .ret hframes
    next => cases h
  | task k =>
    simp only [Program.step] at h
    split at h
    next hasTask i hframes hcaptured htask =>
      have hsome := enter_eq h
      simp only [hframes, List.append_nil] at hsome
      rw [hsome]
      exact .task hframes hcaptured htask rfl
    next => cases h
  | letGo =>
    simp only [Program.step] at h
    split at h
    next => cases h
    next houtside =>
      obtain rfl := Option.some.inj h
      exact .letGo houtside

lemma length_makeDecisionAsync (hasTask : Bool) (s : State g) (i : Fin g.size) (σ : RequestState) :
    (makeDecisionAsyncWith hasTask s i σ).frames.length = 1 := by
  unfold makeDecisionAsyncWith
  cases g.kind i with
  | leaf => cases σ <;> rfl
  | binary logic l r => rfl

/-- A call enters two functions at most. -/
lemma length_enter_le (hasTask : Bool) (s : State g) (c : Call (Fin g.size)) :
    (c.enter hasTask s).frames.length ≤ 2 := by
  cases c with
  | request i σ =>
    simp only [Call.enter, requestDecisionAsyncWith]
    split_ifs <;> simp [length_makeDecisionAsync]
  | decision requestor i d =>
    cases requestor with
    | start => simp [Call.enter, decisionFromNodeAsyncWith]
    | node p =>
      simp only [Call.enter, decisionFromNodeAsyncWith]
      cases g.kind p with
      | leaf => simp
      | binary logic l r =>
        simp only
        split_ifs <;> simp

/-- **The program runs the graph.** A call or a task is one step of the graph, the rest is none. -/
lemma base_step {m : Move} (h : p.step a m = some p') :
    (∃ b, step a p.base b = some p'.base) ∧
        p'.frames.length + p'.outside ≤ p.frames.length + p.outside + 2 ∨
      p'.base = p.base ∧ p'.frames.length + p'.outside + 1 = p.frames.length + p.outside := by
  have hcall : ∀ {hasTask : Bool} {c : Call (Fin g.size)} {pass : Pass} {calls : List _}
      {below : List (Frame (Fin g.size))} {q : Program g},
      p.frames = ⟨hasTask, (c, pass) :: calls⟩ :: below →
      ∀ callee left : Bool, q.graph = (c.enter callee p.graph).graph →
      q.frames = (c.enter callee p.graph).frames ++ ⟨left, calls⟩ :: below →
      step a p.base .call = some q.base := by
    intro hasTask c pass calls below q hframes callee left hgraph hq
    have hagenda : p.base.agenda = c :: pending (⟨left, calls⟩ :: below) := by
      show pending p.frames = _
      rw [hframes]
      rfl
    simp only [step, hagenda]
    refine congrArg some (((matches_enter callee p.graph c _).base _).trans ?_)
    show _ = { q.graph with agenda := pending q.frames }
    rw [hq, hgraph]
  cases Program.steps h with
  | @copy c calls below hframes =>
    refine .inl ⟨⟨.call, hcall hframes true true rfl rfl⟩, ?_⟩
    have hle := length_enter_le true p.graph c
    simp only [hframes, List.length_append, List.length_cons]
    omega
  | @move hasTask c calls below hframes =>
    refine .inl ⟨⟨.call, hcall hframes hasTask false rfl rfl⟩, ?_⟩
    have hle := length_enter_le hasTask p.graph c
    simp only [hframes, List.length_append, List.length_cons]
    omega
  | @ret hasTask below hframes =>
    refine .inr ⟨?_, ?_⟩
    · rw [base_destroy]
      show { p.graph with agenda := pending below } = { p.graph with agenda := pending p.frames }
      rw [hframes]
      rfl
    · cases hasTask <;> simp [Program.destroy, hframes] <;> omega
  | @task k hasTask i hframes hcaptured htask e he =>
    subst he
    refine .inl ⟨⟨.task k, ?_⟩, by simp [hframes, runLeafTaskWith]; omega⟩
    have hagenda : p.base.agenda = [] := by
      show pending p.frames = []
      rw [hframes]
      rfl
    have htask' : p.base.tasks[k]? = some i := htask
    simp only [step, hagenda, htask']
    have hbase := (matches_runLeafTask (a := a) hasTask
      { p.graph with tasks := p.graph.tasks.eraseIdx k } i []).base []
    rw [List.append_nil] at hbase
    refine congrArg some (Eq.trans ?_ hbase)
    simp [Program.base, pending]
  | letGo houtside =>
    refine .inr ⟨base_destroy _ _, ?_⟩
    simp [Program.destroy]
    omega

/-! ## Who has the task -/

/-- One for a function that has the task. -/
def owner {N : Type} (f : Frame N) : ℕ :=
  if f.hasTask then 1 else 0

/-- A function with a call to make has the task, and only its last call takes it. -/
def Frame.Keeps {N : Type} (f : Frame N) : Prop :=
  f.calls = [] ∨ f.hasTask = true ∧ ∀ c ∈ f.calls.dropLast, c.2 = .copy

lemma keeps_loop {N : Type} (calls : List (Call N)) : (Frame.loop true calls).Keeps := by
  refine .inr ⟨rfl, fun c hc => ?_⟩
  obtain ⟨c', -, rfl⟩ := List.mem_map.mp (List.dropLast_subset _ hc)
  rfl

/-- After a copy was passed on, the function still has its own holder. -/
lemma Frame.Keeps.of_copy {N : Type} {c : Call N} {calls : List (Call N × Pass)}
    (h : Frame.Keeps ⟨true, (c, .copy) :: calls⟩) : Frame.Keeps ⟨true, calls⟩ := by
  cases calls with
  | nil => exact .inl rfl
  | cons c' calls =>
    obtain ⟨-, hcopy⟩ := h.resolve_left (List.cons_ne_nil _ _)
    exact .inr ⟨rfl, fun d hd => hcopy d (List.mem_cons_of_mem _ hd)⟩

/-- What takes the task is the last call. -/
lemma Frame.Keeps.of_move {N : Type} {hasTask : Bool} {c : Call N} {calls : List (Call N × Pass)}
    (h : Frame.Keeps ⟨hasTask, (c, .move) :: calls⟩) : hasTask = true ∧ calls = [] := by
  obtain ⟨hhas, hcopy⟩ := h.resolve_left (List.cons_ne_nil _ _)
  refine ⟨hhas, ?_⟩
  cases calls with
  | nil => rfl
  | cons c' calls => cases hcopy (c, .move) (List.mem_cons_self ..)

/-- A function that was given the task: the new functions, the lambda and the copies. -/
structure Entered.Sound (e : Entered g) (tasks : ℕ) : Prop where
  frames : ∀ f ∈ e.frames, f.Keeps
  captured : ∀ b ∈ e.captured, b = true
  tasks : e.graph.tasks.length = tasks + e.captured.length
  count : tally owner e.frames + e.captured.length = 1 + e.copies

/-- The function makes no call. -/
lemma sound_nothing (s : State g) : Entered.Sound ⟨s, [⟨true, []⟩], 0, []⟩ s.tasks.length :=
  ⟨fun f hf => .inl (by rw [List.mem_singleton.mp hf]), nofun, rfl, rfl⟩

/-- The function passes the task on to its last call. -/
lemma sound_moves (s : State g) (c : Call (Fin g.size)) :
    Entered.Sound ⟨s, [⟨true, [(c, .move)]⟩], 0, []⟩ s.tasks.length :=
  ⟨fun f hf => .inr (by rw [List.mem_singleton.mp hf]; exact ⟨rfl, nofun⟩), nofun, rfl, rfl⟩

lemma sound_makeDecisionAsync (s : State g) (i : Fin g.size) (σ : RequestState) :
    (makeDecisionAsyncWith true s i σ).Sound s.tasks.length := by
  unfold makeDecisionAsyncWith
  cases hkind : g.kind i with
  | leaf =>
    cases σ with
    | requestDecision =>
      refine ⟨fun f hf => ?_, by simp, by simp, rfl⟩
      rw [show f = ⟨false, []⟩ by simpa using hf]
      exact .inl rfl
    | noRequestComing => exact sound_nothing { s with made := s.made ++ [(i, .noRequestComing)] }
  | binary logic l r =>
    refine ⟨fun f hf => ?_, nofun, rfl, rfl⟩
    obtain rfl := List.mem_singleton.mp hf
    cases σ with
    | requestDecision => exact .inr ⟨rfl, nofun⟩
    | noRequestComing => exact .inr ⟨rfl, by simp⟩

lemma sound_requestDecisionAsync (s : State g) (i : Fin g.size) (σ : RequestState) :
    (requestDecisionAsyncWith true s i σ).Sound s.tasks.length := by
  unfold requestDecisionAsyncWith
  simp only
  split
  · split
    · exact sound_makeDecisionAsync _ i σ
    · exact sound_nothing _
  · split
    · split
      · exact sound_makeDecisionAsync _ i σ
      · exact sound_nothing _
    · exact sound_nothing _

/-- A decision is sent with the task, which was moved or copied. -/
lemma sound_send (s : State g) (i : Fin g.size) (d : ControlFlowStatus) {f : Frame (Fin g.size)}
    (hf : f.Keeps) : Entered.Sound
      ⟨(sendDecisionToRequestorsAsyncWith true s i d).1,
        [(sendDecisionToRequestorsAsyncWith true s i d).2, f], owner f, []⟩ s.tasks.length := by
  refine ⟨fun f' hf' => ?_, nofun, rfl, rfl⟩
  rcases List.mem_cons.mp hf' with rfl | hf'
  · exact keeps_loop _
  · rw [List.mem_singleton.mp hf']
    exact hf

lemma sound_decisionFromNodeAsync (s : State g) (i : Fin g.size) (d : ControlFlowStatus)
    (requestor : Requestor (Fin g.size)) :
    (decisionFromNodeAsyncWith true s i d requestor).Sound s.tasks.length := by
  have hmoved : Frame.Keeps (⟨false, []⟩ : Frame (Fin g.size)) := .inl rfl
  cases requestor with
  | start => exact sound_nothing { s with finishedLeafNodes := s.finishedLeafNodes + 1 }
  | node p =>
    cases hkind : g.kind p with
    | leaf =>
      simp only [decisionFromNodeAsyncWith, hkind]
      exact sound_nothing s
    | binary logic left right =>
      simp only [decisionFromNodeAsyncWith, hkind]
      split
      · split
        · exact sound_send _ _ _ hmoved
        · split
          · split
            · exact sound_send _ _ _ (.inr ⟨rfl, nofun⟩)
            · exact sound_moves _ _
          · split
            · exact sound_send _ _ _ hmoved
            · exact sound_nothing _
      · exact sound_nothing _

/-- A call accounts for every holder it makes. -/
lemma sound_enter (s : State g) (c : Call (Fin g.size)) :
    (c.enter true s).Sound s.tasks.length := by
  cases c with
  | request i σ => exact sound_requestDecisionAsync s i σ
  | decision requestor i d => exact sound_decisionFromNodeAsync s i d requestor

/-- A leaf task accounts for every holder it makes. -/
lemma sound_runLeafTask (s : State g) (i : Fin g.size) :
    (runLeafTaskWith true a s i).Sound s.tasks.length :=
  sound_send _ i _ (.inl rfl)

/-! ## The reference count -/

/-- Every holder that has the task is counted, and the task is handed to its group when the count
has come to zero. -/
structure Program.Held (p : Program g) : Prop where
  frames : ∀ f ∈ p.frames, f.Keeps
  captured : ∀ b ∈ p.captured, b = true
  tasks : p.graph.tasks.length = p.captured.length
  count : p.refCount = p.outside + tally owner p.frames + p.captured.length
  spawned : p.spawned = if p.refCount = 0 then 1 else 0

/-- One holder less. -/
lemma held_destroy {hasTask : Bool} (hframes : ∀ f ∈ p.frames, f.Keeps)
    (hcaptured : ∀ b ∈ p.captured, b = true) (htasks : p.graph.tasks.length = p.captured.length)
    (hcount : p.refCount = p.outside + tally owner p.frames + p.captured.length
      + if hasTask then 1 else 0)
    (hspawned : p.spawned = if p.refCount = 0 then 1 else 0) : (p.destroy hasTask).Held := by
  cases hasTask with
  | false => exact ⟨hframes, hcaptured, htasks, hcount, hspawned⟩
  | true =>
    rw [if_pos rfl] at hcount
    rw [if_neg (by omega)] at hspawned
    refine ⟨hframes, hcaptured, htasks, ?_, ?_⟩
    · show p.refCount - 1 = _
      rw [hcount]
      rfl
    · show (if 0 = p.refCount - 1 then p.spawned + 1 else p.spawned) = _
      rw [hspawned]
      exact if_congr eq_comm rfl rfl

/-- A function is entered with a holder that was counted. -/
lemma held_enter {e : Entered g} {captured : List Bool} {frames : List (Frame (Fin g.size))}
    {refCount tasks : ℕ} (he : e.Sound tasks) (hframes : ∀ f ∈ frames, f.Keeps)
    (hcaptured : ∀ b ∈ captured, b = true) (htasks : tasks = captured.length)
    (hcount : refCount = p.outside + tally owner frames + captured.length + 1)
    (hspawned : p.spawned = 0) :
    Program.Held { p with
      graph := e.graph
      frames := e.frames ++ frames
      captured := captured ++ e.captured
      refCount := refCount + e.copies } := by
  have hnew := he.count
  refine ⟨fun f hf => ?_, fun b hb => ?_, ?_, ?_, ?_⟩
  · exact (List.mem_append.mp hf).elim (he.frames f) (hframes f)
  · exact (List.mem_append.mp hb).elim (hcaptured b) (he.captured b)
  · show e.graph.tasks.length = (captured ++ e.captured).length
    rw [he.tasks, List.length_append, htasks]
  · show refCount + e.copies = p.outside + tally owner (e.frames ++ frames)
      + (captured ++ e.captured).length
    rw [tally_append, List.length_append]
    omega
  · show p.spawned = if refCount + e.copies = 0 then 1 else 0
    rw [hspawned, if_neg (by omega)]

/-- Each move keeps the count. -/
lemma held_step {m : Move} (h : p.Held) (hstep : p.step a m = some p') : p'.Held := by
  have hcount := h.count
  have hspawned := h.spawned
  cases Program.steps hstep with
  | @copy c calls below hframes =>
    rw [hframes, tally_cons] at hcount
    have hkeeps := h.frames _ (hframes ▸ List.mem_cons_self ..)
    have hone : owner (⟨true, (c, .copy) :: calls⟩ : Frame (Fin g.size)) = 1 := rfl
    rw [if_neg (by omega)] at hspawned
    refine held_enter (sound_enter p.graph c) (fun f hf => ?_) h.captured h.tasks ?_ hspawned
    · rcases List.mem_cons.mp hf with rfl | hf
      · exact hkeeps.of_copy
      · exact h.frames f (hframes ▸ List.mem_cons_of_mem _ hf)
    · rw [tally_cons]
      show p.refCount + 1 = p.outside + (1 + tally owner below) + p.captured.length + 1
      omega
  | @move hasTask c calls below hframes =>
    rw [hframes, tally_cons] at hcount
    obtain ⟨rfl, rfl⟩ := (h.frames _ (hframes ▸ List.mem_cons_self ..)).of_move
    have hone : owner (⟨true, [(c, .move)]⟩ : Frame (Fin g.size)) = 1 := rfl
    rw [if_neg (by omega)] at hspawned
    refine held_enter (sound_enter p.graph c) (fun f hf => ?_) h.captured h.tasks ?_ hspawned
    · rcases List.mem_cons.mp hf with rfl | hf
      · exact .inl rfl
      · exact h.frames f (hframes ▸ List.mem_cons_of_mem _ hf)
    · rw [tally_cons]
      show p.refCount = p.outside + (0 + tally owner below) + p.captured.length + 1
      omega
  | @ret hasTask below hframes =>
    rw [hframes, tally_cons] at hcount
    refine held_destroy (fun f hf => h.frames f (hframes ▸ List.mem_cons_of_mem _ hf)) h.captured
      h.tasks ?_ hspawned
    show p.refCount = p.outside + tally owner below + p.captured.length + _
    simp only [owner] at hcount
    omega
  | @task k hasTask i hframes hcaptured htask e he =>
    obtain rfl := h.captured _ (List.mem_of_getElem? hcaptured)
    subst he
    have hlt := (List.getElem?_eq_some_iff.mp hcaptured).1
    have hlength := List.length_eraseIdx_of_lt hlt
    rw [hframes, tally_nil] at hcount
    rw [if_neg (by omega)] at hspawned
    have hsound := sound_runLeafTask (a := a) { p.graph with tasks := p.graph.tasks.eraseIdx k } i
    have htasks : (p.graph.tasks.eraseIdx k).length = (p.captured.eraseIdx k).length := by
      rw [List.length_eraseIdx_of_lt (h.tasks ▸ hlt), hlength, h.tasks]
    have hnone : ∀ f ∈ ([] : List (Frame (Fin g.size))), f.Keeps := nofun
    have hleft : p.refCount = p.outside + tally owner ([] : List (Frame (Fin g.size)))
        + (p.captured.eraseIdx k).length + 1 := by
      rw [tally_nil]
      omega
    have hheld := held_enter hsound hnone
      (fun b hb => h.captured b (List.mem_of_mem_eraseIdx hb)) htasks hleft hspawned
    rwa [List.append_nil] at hheld
  | letGo houtside =>
    refine held_destroy h.frames h.captured h.tasks ?_ hspawned
    show p.refCount = p.outside - 1 + tally owner p.frames + p.captured.length + 1
    omega

/-- At the start `startAsync` has one holder, and the others are outside. -/
lemma held_start (hs : s.Quiet) : (Program.start s n).Held := by
  refine ⟨fun f hf => ?_, nofun, ?_, ?_, ?_⟩
  · rw [List.mem_singleton.mp hf]
    exact keeps_loop _
  · show s.tasks.length = 0
    rw [hs.2]
    rfl
  · show n + 1 = n + (1 + 0) + 0
    omega
  · exact (if_neg (Nat.succ_ne_zero n)).symm

lemma held (hs : s.Quiet) (h : Reaches (Program.step a) (Program.start s n) p) : p.Held :=
  h.invariant (held_start hs) fun _ _ _ hp _ hstep => held_step hp hstep

/-- **The reference count does not wrap** while fewer than `2 ^ 32` holders have the task: the word has
room for the count, and where a holder goes it comes to zero as the count does. -/
theorem refCount_shows (hs : s.Quiet) (h : Reaches (Program.step a) (Program.start s n) p)
    (hfew : p.outside + tally owner p.frames + p.captured.length < 2 ^ 32) :
    p.refCount < 2 ^ 32 ∧ ∀ c : BitVec 32, Shows c p.refCount → 0 < p.refCount →
      Shows (c - 1#32) (p.destroy true).refCount ∧
        (0#32 = c - 1#32 ↔ 0 = (p.destroy true).refCount) := by
  refine ⟨(held hs h).count.trans_lt hfew, fun c hc hpos => ?_⟩
  exact ⟨hc.decrement hpos, hc.decrement_eq_zero_iff hpos⟩

/-! ## The outermost function -/

/-- The outermost function keeps the task until it returns: it passes on copies only. -/
def Program.Rooted (p : Program g) : Prop :=
  ∀ f, p.frames.getLast? = some f → f.hasTask = true ∧ ∀ c ∈ f.calls, c.2 = .copy

/-- `startAsync` and the lambdas of the leaf tasks are called from outside. -/
lemma rooted_step {m : Move} (hcaptured : ∀ b ∈ p.captured, b = true) (h : p.Rooted)
    (hstep : p.step a m = some p') : p'.Rooted := by
  -- what is entered from another function leaves the outermost one where it is
  have hbelow : ∀ (entered : List (Frame (Fin g.size))) (f f' : Frame (Fin g.size)) below,
      (entered ++ f :: below).getLast? = some f' → (f :: below).getLast? = some f' := by
    intro entered f f' below hlast
    rwa [List.getLast?_append_of_ne_nil _ (List.cons_ne_nil f below)] at hlast
  cases Program.steps hstep with
  | @copy c calls below hframes =>
    intro f hlast
    have hlast := hbelow _ _ _ _ hlast
    cases below with
    | nil =>
      obtain rfl := Option.some.inj hlast
      obtain ⟨-, hcopy⟩ := h _ (by rw [hframes]; rfl)
      exact ⟨rfl, fun c' hc' => hcopy c' (List.mem_cons_of_mem _ hc')⟩
    | cons f' below =>
      exact h f (by rw [hframes]; exact hlast)
  | @move hasTask c calls below hframes =>
    intro f hlast
    have hlast := hbelow _ _ _ _ hlast
    cases below with
    | nil =>
      obtain ⟨-, hcopy⟩ := h _ (by rw [hframes]; rfl)
      cases hcopy (c, .move) List.mem_cons_self
    | cons f' below =>
      exact h f (by rw [hframes]; exact hlast)
  | @ret hasTask below hframes =>
    intro f hlast
    have hsame : ∀ q : Program g, (q.destroy hasTask).frames = q.frames := by
      intro q
      cases hasTask <;> rfl
    rw [hsame] at hlast
    cases below with
    | nil => cases hlast
    | cons f' below => exact h f (by rw [hframes]; exact hlast)
  | @task k hasTask i hframes htaken htask e he =>
    obtain rfl := hcaptured _ (List.mem_of_getElem? htaken)
    subst he
    intro f hlast
    obtain rfl := Option.some.inj hlast
    exact ⟨rfl, nofun⟩
  | letGo houtside => exact h

/-- The outermost function of a run has the task. -/
lemma rooted (hs : s.Quiet) (h : Reaches (Program.step a) (Program.start s n) p) : p.Rooted := by
  refine h.invariant_of (J := Program.Held) (fun hrun => held hs hrun) ?_
    fun q m q' hheld hrooted _ hstep => rooted_step hheld.captured hrooted hstep
  intro f hlast
  obtain rfl := Option.some.inj hlast
  refine ⟨rfl, fun c hc => ?_⟩
  obtain ⟨c', -, rfl⟩ := List.mem_map.mp hc
  rfl

/-- A function that has not returned has the task. -/
lemma Program.Rooted.frames_eq_nil (h : p.Rooted) (hnone : ∀ f ∈ p.frames, f.hasTask = false) :
    p.frames = [] := by
  cases hlast : p.frames.getLast? with
  | none => exact List.getLast?_eq_none_iff.mp hlast
  | some f =>
    have htrue := (h f hlast).1
    rw [hnone f (List.mem_of_getLast? hlast)] at htrue
    cases htrue

/-! ## The end -/

/-- The calls that the program has made are a run of the graph. -/
lemma reaches_base (h : Reaches (Program.step a) (Program.start s n) p) :
    Reaches (step a) (startAsync s) p.base := by
  have hstart : (Program.start s n).base = startAsync s := by
    show { s with agenda := pending [Frame.loop true _] } = _
    simp [pending, startAsync]
  rw [← hstart]
  refine h.simulate fun q m q' _ hstep => ?_
  rcases base_step hstep with ⟨⟨b, hb⟩, -⟩ | ⟨hsame, -⟩
  · exact RunsTo.refl.tail trivial hb
  · rw [hsame]
    exact .refl

/-- Nothing has the task: nothing is left to be done. -/
lemma Program.Held.quiet (h : p.Held) (hzero : p.refCount = 0) :
    p.base.Quiet ∧ p.outside = 0 ∧ ∀ f ∈ p.frames, f.hasTask = false := by
  have hcount := h.count
  have htally : tally owner p.frames = 0 := by omega
  have hnone : ∀ f ∈ p.frames, f.hasTask = false := by
    intro f hf
    have howner := tally_eq_zero.mp htally f hf
    by_contra htrue
    rw [owner, if_pos (by simpa using htrue)] at howner
    cases howner
  refine ⟨⟨?_, ?_⟩, by omega, hnone⟩
  · refine List.flatMap_eq_nil_iff.mpr fun f hf => ?_
    rcases h.frames f hf with hcalls | ⟨htrue, -⟩
    · rw [hcalls]
      rfl
    · cases (hnone f hf).symm.trans htrue
  · have htasks := h.tasks
    exact List.length_eq_zero_iff.mp (show p.graph.tasks.length = 0 by omega)

/-- As long as a holder has the task there is a step. -/
lemma Program.Held.exists_step (h : p.Held)
    (hnot : ¬ (p.frames = [] ∧ p.captured = [] ∧ p.outside = 0)) :
    ∃ m p', p.step a m = some p' := by
  rcases hframes : p.frames with _ | ⟨⟨hasTask, calls⟩, below⟩
  · by_cases houtside : p.outside = 0
    · -- a leaf task is pending
      rcases hcaptured : p.captured with _ | ⟨b, captured⟩
      · exact absurd ⟨hframes, hcaptured, houtside⟩ hnot
      · obtain rfl := h.captured b (hcaptured ▸ List.mem_cons_self ..)
        have htasks := h.tasks
        rw [hcaptured, List.length_cons] at htasks
        obtain ⟨i, tasks, hi⟩ := List.exists_cons_of_length_eq_add_one htasks
        exact ⟨.task 0, _, by simp only [Program.step, hframes, hcaptured, hi]; rfl⟩
    · exact ⟨.letGo, _, if_neg houtside⟩
  · rcases calls with _ | ⟨⟨c, pass⟩, calls⟩
    · exact ⟨.ret, _, by simp only [Program.step, hframes]; rfl⟩
    · obtain ⟨htrue, -⟩ :=
        (h.frames _ (hframes ▸ List.mem_cons_self ..)).resolve_left (List.cons_ne_nil _ _)
      obtain rfl : hasTask = true := htrue
      refine ⟨.call, ?_⟩
      cases pass <;> simp [Program.step, hframes, Program.enter]

/-- A bound on the number of steps that are left. -/
def Program.measure (p : Program g) : ℕ :=
  3 * p.base.measure + p.frames.length + p.outside

/-- Every step lowers the measure. -/
lemma Program.measure_lt {m : Move} (h : p.step a m = some p') : p'.measure < p.measure := by
  unfold Program.measure
  rcases base_step h with ⟨⟨b, hb⟩, hlength⟩ | ⟨hsame, hlength⟩
  · have hlt := ControlFlow.measure_lt hb
    omega
  · rw [hsame]
    omega

/-- The measure bounds how many moves are left. -/
lemma Program.length_le (ms : List Move) (h : executeAll (Program.step a) p ms = some p') :
    ms.length ≤ p.measure := by
  induction ms generalizing p with
  | nil => exact Nat.zero_le _
  | cons m ms ih =>
    obtain ⟨q, hq, hrest⟩ := Option.bind_eq_some_iff.mp
      (show (p.step a m).bind (fun q => executeAll (Program.step a) q ms) = some p' from h)
    have hlt := Program.measure_lt hq
    have hle := ih hrest
    rw [List.length_cons]
    omega

/-- Every program can be run to its end. -/
lemma Program.exists_end (a : Assignment g) (p : Program g) :
    ∃ p', Reaches (Program.step a) p p' ∧ ∀ m, p'.step a m = none := by
  induction hn : p.measure using Nat.strong_induction_on generalizing p with
  | _ n ih =>
    by_cases hend : ∀ m, p.step a m = none
    · exact ⟨p, .refl, hend⟩
    · push Not at hend
      obtain ⟨m, hm⟩ := hend
      obtain ⟨q, hq⟩ := Option.ne_none_iff_exists'.mp hm
      obtain ⟨p', hrun, hp'⟩ := ih q.measure (hn ▸ Program.measure_lt hq) q rfl
      exact ⟨p', (RunsTo.refl.tail trivial hq).trans hrun, hp'⟩

/-- Nothing is left at the end. -/
lemma Program.Held.spawned_of_stuck (h : p.Held) (hstuck : ∀ m, p.step a m = none) :
    p.spawned = 1 := by
  have hend : p.frames = [] ∧ p.captured = [] ∧ p.outside = 0 := by
    by_contra hnot
    obtain ⟨m, p', hstep⟩ := h.exists_step (a := a) hnot
    cases (hstuck m).symm.trans hstep
  rw [h.spawned, h.count, hend.1, hend.2.1, hend.2.2]
  rfl

/-- A run comes to its end, where the task has been spawned. -/
lemma exists_spawned (hs : s.Quiet) (n : ℕ) :
    ∃ p, Reaches (Program.step a) (Program.start s n) p ∧ p.spawned = 1 := by
  obtain ⟨p, hrun, hstuck⟩ := Program.exists_end a (Program.start s n)
  exact ⟨p, hrun, (held hs hrun).spawned_of_stuck hstuck⟩

/-- **The waiting task runs last, and once.** Whatever the graph, and however many other holders of
the task are destroyed in between: the calls are a run of the graph, every call is made and every
leaf task runs with a holder that has the task, and the task is handed to its group at most once,
exactly when no call and no leaf task is pending and no other holder is left; every function has
returned then. No run goes on for ever, and when no step is possible the task was handed over. -/
theorem task_runs_last (hs : s.Quiet) (h : Reaches (Program.step a) (Program.start s n) p) :
    Reaches (step a) (startAsync s) p.base ∧
    (∀ f ∈ p.frames, f.calls ≠ [] → f.hasTask = true) ∧ (∀ b ∈ p.captured, b = true) ∧
    p.spawned ≤ 1 ∧
    (p.spawned = 1 ↔ p.base.Quiet ∧ p.outside = 0 ∧ ∀ f ∈ p.frames, f.hasTask = false) ∧
    (p.spawned = 1 → p.frames = []) ∧
    (∀ ms p', executeAll (Program.step a) p ms = some p' → ms.length ≤ p.measure) ∧
    ((∀ m, p.step a m = none) → p.spawned = 1) := by
  have hheld := held hs h
  have hspawned := hheld.spawned
  have hiff : p.spawned = 1 ↔ p.refCount = 0 := by
    rw [hspawned]
    split <;> simp_all
  refine ⟨reaches_base h, fun f hf hcalls => ?_, hheld.captured, ?_, ?_, fun hone => ?_,
    fun ms p' => Program.length_le ms, hheld.spawned_of_stuck⟩
  · exact ((hheld.frames f hf).resolve_left hcalls).1
  · rw [hspawned]
    split <;> omega
  · rw [hiff]
    refine ⟨hheld.quiet, fun ⟨hquiet, houtside, hnone⟩ => ?_⟩
    have htasks := hheld.tasks
    rw [show p.graph.tasks = [] from hquiet.2, List.length_nil] at htasks
    have hframes : tally owner p.frames = 0 :=
      tally_eq_zero.mpr fun f hf => by rw [owner, hnone f hf]; rfl
    rw [hheld.count, houtside, hframes, ← htasks]
  · exact (rooted hs h).frames_eq_nil (hheld.quiet (hiff.mp hone)).2.2

theorem task_runs_last_andOrForest : ∃ p : Program andOrForest,
    Reaches (Program.step goSkipException) (Program.start {} 1) p ∧ p.spawned = 1 ∧
      p.base.Quiet ∧ p.outside = 0 ∧ p.frames = [] := by
  have hquiet : ({} : State andOrForest).Quiet := ready_default.quiet
  obtain ⟨p, hrun, hstuck⟩ := Program.exists_end goSkipException (Program.start ({} : State andOrForest) 1)
  obtain ⟨-, -, -, -, hiff, hreturned, -, hlast⟩ := task_runs_last hquiet hrun
  have hspawned := hlast hstuck
  exact ⟨p, hrun, hspawned, (hiff.mp hspawned).1, (hiff.mp hspawned).2.1, hreturned hspawned⟩

/-- **A forest has decided when the waiting task runs.** Every root has sent one decision, its value,
and all roots are counted. -/
theorem decided_before_task_runs (hforest : g.IsForest) (hs : s.Ready)
    (h : Reaches (Program.step a) (Program.start s n) p) (hspawned : p.spawned = 1) :
    (∀ i ∈ g.leafNodes, p.graph.decisions i = [eval a i]) ∧
      p.graph.finishedLeafNodes = s.finishedLeafNodes + g.leafNodes.length := by
  have hheld := held hs.quiet h
  have hzero : p.refCount = 0 := by
    by_contra hne
    have hnone := hheld.spawned
    rw [if_neg hne] at hnone
    omega
  have hquiet := (hheld.quiet hzero).1
  have hrun := reaches_base h
  have hin := inForest hforest hs hrun
  have hsettled := settled_of_isForest hforest hs hrun
  have hfinished := finished_of_quiet hforest hin hsettled hquiet
  exact ⟨fun i hi => ((calls_decisions hforest hin hsettled hquiet i).1 (.root hi)).2, hfinished⟩

theorem decided_before_task_runs_andOrForest : ∃ p : Program andOrForest,
    Reaches (Program.step goSkipException) (Program.start {} 1) p ∧
      p.graph.decisions ⟨4, by decide⟩ = [.exception] ∧ p.graph.finishedLeafNodes = 1 := by
  have hforest : andOrForest.IsForest := by decide
  have hready : ({} : State andOrForest).Ready := ready_default
  obtain ⟨p, hrun, hspawned⟩ := exists_spawned (a := goSkipException) hready.quiet 1
  obtain ⟨hroots, hfinished⟩ := decided_before_task_runs hforest hready hrun hspawned
  refine ⟨p, hrun, ?_, hfinished⟩
  rw [← eval_andOrForest]
  exact hroots _ (by decide)

end UnifyPrototype.ControlFlow
