import UnifyPrototype.ControlFlow.Quiescence

/-!
# Every node is made to decide once and decides once

How the run status of a node changes, and what it says about the records, in every graph, whoever
asks whom and when.
-/

namespace UnifyPrototype.ControlFlow

open UnifyPrototype.Utils

variable {g : DecisionGraph} {a : Assignment g} {s s' : State g}

/-! ## How the run status of a node changes -/

/-- The run status of a node. -/
def State.status (s : State g) (i : Fin g.size) : RunStatus :=
  (s.node i).runStatus

/-- What a node becomes when it is made to decide, or told that it need not. -/
inductive Starts (i : Fin g.size) : RequestState → RunStatus → Prop
  | asked (hkind : g.kind i = .leaf) : Starts i .requestDecision .shouldRun
  | told (hkind : g.kind i = .leaf) : Starts i .noRequestComing .willNotRun
  | binary {σ logic l r} (hkind : g.kind i = .binary logic l r) : Starts i σ .inProgress

/-- A step changes the run status of one node at most, forwards, and records it. -/
inductive StatusStep (s s' : State g) : Prop
  | same (hstatus : s'.status = s.status) (hmade : s'.made = s.made) (hsent : s'.sent = s.sent)
      (htasks : s'.tasks = s.tasks)
  | started (i : Fin g.size) (σ : RequestState) (x : RunStatus) (hbefore : s.status i = .notStarted)
      (hstarts : Starts i σ x) (hstatus : s'.status = Function.update s.status i x)
      (hmade : s'.made = s.made ++ [(i, σ)]) (hsent : s'.sent = s.sent)
      (htasks : s'.tasks = s.tasks ++ if x = .shouldRun then [i] else [])
  | decided (i : Fin g.size) (d : ControlFlowStatus) (hbefore : s.status i = .inProgress)
      (hstatus : s'.status = Function.update s.status i .completed)
      (hmade : s'.made = s.made) (hsent : s'.sent = s.sent ++ [(i, d)]) (htasks : s'.tasks = s.tasks)
  | ran (i : Fin g.size) (d : ControlFlowStatus) (htask : s.tasks.Perm (i :: s'.tasks))
      (hstatus : s'.status = Function.update s.status i .completed)
      (hmade : s'.made = s.made) (hsent : s'.sent = s.sent ++ [(i, d)])

lemma status_update (f : Fin g.size → NodeState) (i : Fin g.size) (n : NodeState) :
    (fun j => (Function.update f i n j).runStatus)
      = Function.update (fun j => (f j).runStatus) i n.runStatus := by
  funext j
  by_cases hj : j = i
  · subst hj
    simp
  · simp [Function.update_of_ne hj]

lemma status_update_same (f : Fin g.size → NodeState) (i : Fin g.size) (n : NodeState)
    (h : n.runStatus = (f i).runStatus) :
    (fun j => (Function.update f i n j).runStatus) = fun j => (f j).runStatus := by
  rw [status_update, h]
  exact Function.update_eq_self i fun j => (f j).runStatus

/-- Each step changes one status at most, and records why. -/
lemma statusStep (h : Moves a s s') : StatusStep s s' := by
  cases h with
  | ignored => exact .same rfl rfl rfl rfl
  | finished => exact .same rfl rfl rfl rfl
  | stray => exact .same rfl rfl rfl rfl
  | counted => exact .same (status_update_same _ _ _ rfl) rfl rfl rfl
  | stored => exact .same (status_update_same _ _ _ (by simp)) rfl rfl rfl
  | asked => exact .same (status_update_same _ _ _ (by simp)) rfl rfl rfl
  | @madeLeaf i σ _ _ hstatus hkind =>
    refine .started i σ σ.runStatus hstatus ?_ (status_update _ _ _) rfl rfl ?_
    · cases σ with
      | requestDecision => exact .asked hkind
      | noRequestComing => exact .told hkind
    · cases σ <;> rfl
  | @madeBinary i σ _ _ _ _ _ hstatus hkind =>
    exact .started i σ .inProgress hstatus (.binary hkind) (status_update _ _ _) rfl rfl
      (List.append_nil _).symm
  | decided _ _ hstatus => exact .decided _ _ hstatus (status_update _ _ _) rfl rfl rfl
  | @ran k i _ htask =>
    obtain ⟨hlt, rfl⟩ := List.getElem?_eq_some_iff.mp htask
    exact .ran _ _ (List.getElem_cons_eraseIdx_perm hlt).symm (status_update _ _ _) rfl rfl

/-- What the run status says about the records: a node that is not `notStarted` was made to decide
or told that it need not, once; a `completed` one has sent one decision; a leaf that should run has
one task pending. -/
structure State.Recorded (s : State g) : Prop where
  made : ∀ i, (s.made.map Prod.fst).count i = if s.status i = .notStarted then 0 else 1
  sent : ∀ i, (s.sent.map Prod.fst).count i = if s.status i = .completed then 1 else 0
  tasks : ∀ i, s.tasks.count i = if s.status i = .shouldRun then 1 else 0
  leaf : ∀ i, g.kind i = .leaf → s.status i ≠ .inProgress
  binary : ∀ i logic l r, g.kind i = .binary logic l r →
    s.status i ≠ .shouldRun ∧ s.status i ≠ .willNotRun

/-- A leaf with a task waits for it. -/
lemma State.Recorded.status_of_mem_tasks (h : s.Recorded) {i : Fin g.size} (hi : i ∈ s.tasks) :
    s.status i = .shouldRun := by
  by_contra hne
  have hcount := h.tasks i
  rw [if_neg hne] at hcount
  exact List.count_eq_zero.mp hcount hi

lemma completed_iff_of_started {i : Fin g.size} {x : RunStatus} (hbefore : s.status i = .notStarted)
    (hx : x ≠ .completed) (hstatus : s'.status = Function.update s.status i x) (j : Fin g.size) :
    s'.status j = .completed ↔ s.status j = .completed := by
  rw [hstatus]
  by_cases hj : j = i
  · subst hj
    simp [hx, hbefore]
  · rw [Function.update_of_ne hj]

lemma Starts.ne_notStarted {i : Fin g.size} {σ : RequestState} {x : RunStatus}
    (h : Starts i σ x) : x ≠ .notStarted ∧ x ≠ .completed := by
  cases h <;> simp

/-- A node starts, and its record says so. -/
lemma recorded_started {i : Fin g.size} {σ : RequestState} {x : RunStatus} (h : s.Recorded)
    (hbefore : s.status i = .notStarted) (hstarts : Starts i σ x)
    (hstatus : s'.status = Function.update s.status i x)
    (hmade : s'.made = s.made ++ [(i, σ)]) (hsent : s'.sent = s.sent)
    (htasks : s'.tasks = s.tasks ++ if x = .shouldRun then [i] else []) : s'.Recorded := by
  obtain ⟨hne, hne'⟩ := hstarts.ne_notStarted
  refine ⟨fun j => ?_, fun j => ?_, fun j => ?_, fun j hkind => ?_, fun j logic l r hkind => ?_⟩
  all_goals
    rw [hstatus]
    by_cases hj : j = i
  · subst hj
    simp [hmade, h.made j, hbefore, hne]
  · simp [hmade, h.made j, Function.update_of_ne hj, Ne.symm hj]
  · subst hj
    simp [hsent, h.sent j, hbefore, hne']
  · simp [hsent, h.sent j, Function.update_of_ne hj]
  · subst hj
    have hcount := h.tasks j
    by_cases hx : x = .shouldRun <;> simp [htasks, hcount, hbefore, hx]
  · have hcount := h.tasks j
    by_cases hx : x = .shouldRun <;>
      simp [htasks, hcount, hx, Function.update_of_ne hj, Ne.symm hj]
  · subst hj
    rw [Function.update_self]
    cases hstarts with
    | binary hkind' => rw [hkind] at hkind'; cases hkind'
    | _ => simp
  · rw [Function.update_of_ne hj]
    exact h.leaf j hkind
  · subst hj
    rw [Function.update_self]
    cases hstarts with
    | binary => simp
    | asked hkind' | told hkind' => rw [hkind] at hkind'; cases hkind'
  · rw [Function.update_of_ne hj]
    exact h.binary j logic l r hkind

/-- A node decides, and its record says so. -/
lemma recorded_sent {i : Fin g.size} {d : ControlFlowStatus} (h : s.Recorded)
    (hbefore : s.status i ≠ .notStarted ∧ s.status i ≠ .completed)
    (hstatus : s'.status = Function.update s.status i .completed)
    (hmade : s'.made = s.made) (hsent : s'.sent = s.sent ++ [(i, d)])
    (htasks : ∀ j, s'.tasks.count j = if j = i then 0 else s.tasks.count j) : s'.Recorded := by
  refine ⟨fun j => ?_, fun j => ?_, fun j => ?_, fun j hkind => ?_, fun j logic l r hkind => ?_⟩
  all_goals
    rw [hstatus]
    by_cases hj : j = i
  · subst hj
    simp [hmade, h.made j, hbefore.1]
  · simp [hmade, h.made j, Function.update_of_ne hj]
  · subst hj
    simp [hsent, h.sent j, hbefore.2]
  · simp [hsent, h.sent j, Function.update_of_ne hj, Ne.symm hj]
  · subst hj
    simp [htasks]
  · simp [htasks, hj, h.tasks j]
  · subst hj
    simp
  · rw [Function.update_of_ne hj]
    exact h.leaf j hkind
  · subst hj
    simp
  · rw [Function.update_of_ne hj]
    exact h.binary j logic l r hkind

/-- Every step keeps the records. -/
lemma recorded_step (hmoves : Moves a s s') (h : s.Recorded) : s'.Recorded := by
  cases statusStep hmoves with
  | same hstatus hmade hsent htasks =>
    refine ⟨?_, ?_, ?_, ?_, ?_⟩
    · rw [hmade, hstatus]
      exact h.made
    · rw [hsent, hstatus]
      exact h.sent
    · rw [htasks, hstatus]
      exact h.tasks
    · rw [hstatus]
      exact h.leaf
    · rw [hstatus]
      exact h.binary
  | started i σ x hbefore hstarts hstatus hmade hsent htasks =>
    exact recorded_started h hbefore hstarts hstatus hmade hsent htasks
  | decided i d hbefore hstatus hmade hsent htasks =>
    refine recorded_sent h (by simp [hbefore]) hstatus hmade hsent fun j => ?_
    rw [htasks]
    split
    next hj => rw [h.tasks, hj, hbefore, if_neg (by decide)]
    next => rfl
  | ran i d htask hstatus hmade hsent =>
    -- the leaf that runs had one task, so it has none left
    have hcount : ∀ j, s.tasks.count j = s'.tasks.count j + if j = i then 1 else 0 := by
      intro j
      rw [htask.count_eq]
      by_cases hj : j = i
      · subst hj
        simp
      · simp [hj, Ne.symm hj]
    have hbefore : s.status i = .shouldRun :=
      h.status_of_mem_tasks (htask.mem_iff.mpr (by simp))
    refine recorded_sent h (by simp [hbefore]) hstatus hmade hsent fun j => ?_
    have hj := hcount j
    split
    next heq =>
      subst heq
      rw [h.tasks, hbefore, if_pos rfl, if_pos rfl] at hj
      omega
    next hne => simpa [hne] using hj.symm

end UnifyPrototype.ControlFlow
