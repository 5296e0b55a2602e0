import UnifyPrototype.ControlFlow.Model

/-!
# What a step of a transition does

`moves` says once, branch by branch, what a call or a leaf task changes.
-/

namespace UnifyPrototype.ControlFlow

open UnifyPrototype.Utils

variable {g : DecisionGraph} {a : Assignment g} {s s' : State g}

/-- The run status that a request gives to a node before `makeDecisionAsync_`. -/
def RequestState.runStatus : RequestState → RunStatus
  | .requestDecision => .shouldRun
  | .noRequestComing => .willNotRun

/-- The counter of requestors that will not ask, after a request that leads to
`makeDecisionAsync_`. -/
def RequestState.count (n : ℕ) : RequestState → ℕ
  | .requestDecision => n
  | .noRequestComing => n + 1

/-- The decision that a binary node with the members `n` sends when the decision of its left
(or right) composite has arrived, with the calls that follow. -/
inductive Decides (logic : Logic) {N : Type} (r : N) (n : NodeState) (fromLeft : Bool) :
    ControlFlowStatus → List (Call N) → Prop
  | full (hcount : n.decisionsFromComposites = 2) :
      Decides logic r n fromLeft (logic.fullDecisionLogic n.leftDecision n.rightDecision) []
  | left (hcount : n.decisionsFromComposites ≠ 2) (hleft : fromLeft = true)
      (hshort : logic.shortCircuitLogic n.leftDecision ≠ .notStarted) :
      Decides logic r n fromLeft (logic.shortCircuitLogic n.leftDecision)
        [.request r .noRequestComing]
  | right (hcount : n.decisionsFromComposites ≠ 2) (hleft : fromLeft = false)
      (hshort : logic.shortCircuitLogic n.rightDecision ≠ .notStarted) :
      Decides logic r n fromLeft (logic.shortCircuitLogic n.rightDecision) []

/-- The decision of a composite has arrived and is no reason to send one or to ask for one. -/
def Waits (logic : Logic) (n : NodeState) (fromLeft : Bool) : Prop :=
  n.runStatus ≠ .inProgress ∨ (n.decisionsFromComposites ≠ 2 ∧ fromLeft = false ∧
    logic.shortCircuitLogic n.rightDecision = .notStarted)

/-- What a step does, branch by branch. -/
inductive Moves (a : Assignment g) (s : State g) : State g → Prop
  /-- A request to a node that was asked before. -/
  | ignored {i σ rest} (hagenda : s.agenda = .request i σ :: rest)
      (hstatus : (s.node i).runStatus ≠ .notStarted) :
      Moves a s { s with agenda := rest, received := s.received ++ [(i, σ)] }
  /-- A requestor will not ask, but others still may. -/
  | counted {i rest} (hagenda : s.agenda = .request i .noRequestComing :: rest)
      (hstatus : (s.node i).runStatus = .notStarted)
      (hcount : (s.node i).willNotRunRequests + 1 ≠ (g.requestors i).length) :
      Moves a s { s with
        agenda := rest
        received := s.received ++ [(i, .noRequestComing)]
        node := Function.update s.node i
          { s.node i with willNotRunRequests := (s.node i).willNotRunRequests + 1 } }
  /-- A leaf is asked, or told by the last requestor that nobody will ask. -/
  | madeLeaf {i σ rest} (hagenda : s.agenda = .request i σ :: rest)
      (hstatus : (s.node i).runStatus = .notStarted) (hkind : g.kind i = .leaf)
      (hcount : σ = .noRequestComing →
        (s.node i).willNotRunRequests + 1 = (g.requestors i).length) :
      Moves a s { s with
        agenda := rest
        received := s.received ++ [(i, σ)]
        made := s.made ++ [(i, σ)]
        tasks := s.tasks ++ if σ = .requestDecision then [i] else []
        node := Function.update s.node i
          { s.node i with
            runStatus := σ.runStatus
            willNotRunRequests := σ.count (s.node i).willNotRunRequests } }
  /-- A binary node is asked, or told by the last requestor that nobody will ask. -/
  | madeBinary {i σ rest logic l r} (hagenda : s.agenda = .request i σ :: rest)
      (hstatus : (s.node i).runStatus = .notStarted) (hkind : g.kind i = .binary logic l r)
      (hcount : σ = .noRequestComing →
        (s.node i).willNotRunRequests + 1 = (g.requestors i).length) :
      Moves a s { s with
        agenda := .request l σ :: (if σ = .noRequestComing then [.request r σ] else []) ++ rest
        received := s.received ++ [(i, σ)]
        made := s.made ++ [(i, σ)]
        node := Function.update s.node i
          { s.node i with
            runStatus := .inProgress
            requestCallsToComposites := 1
            willNotRunRequests := σ.count (s.node i).willNotRunRequests } }
  /-- The decision of a root arrives. -/
  | finished {i d rest} (hagenda : s.agenda = .decision .start i d :: rest) :
      Moves a s { s with agenda := rest, finishedLeafNodes := s.finishedLeafNodes + 1 }
  /-- A decision for a node that has no composites. -/
  | stray {p i d rest} (hagenda : s.agenda = .decision (.node p) i d :: rest)
      (hkind : g.kind p = .leaf) : Moves a s { s with agenda := rest }
  /-- A decision arrives, and the node goes on waiting. -/
  | stored {p i d rest logic l r} (hagenda : s.agenda = .decision (.node p) i d :: rest)
      (hkind : g.kind p = .binary logic l r)
      (hwaits : Waits logic ((s.node p).store (i = l) d) (i = l)) :
      Moves a s { s with
        agenda := rest
        node := Function.update s.node p ((s.node p).store (i = l) d) }
  /-- The left decision arrives and does not settle the matter: the right one is asked for. -/
  | asked {p d rest logic l r} (hagenda : s.agenda = .decision (.node p) l d :: rest)
      (hkind : g.kind p = .binary logic l r) (hstatus : (s.node p).runStatus = .inProgress)
      (hcount : (s.node p).decisionsFromComposites ≠ 1)
      (hshort : logic.shortCircuitLogic d = .notStarted) :
      Moves a s { s with
        agenda := .request r .requestDecision :: rest
        node := Function.update s.node p ((s.node p).store true d) }
  /-- A decision arrives and the node sends its own. -/
  | decided {p i d rest logic l r d' calls}
      (hagenda : s.agenda = .decision (.node p) i d :: rest)
      (hkind : g.kind p = .binary logic l r) (hstatus : (s.node p).runStatus = .inProgress)
      (hdecides : Decides logic r ((s.node p).store (i = l) d) (i = l) d' calls) :
      Moves a s { s with
        agenda := (g.requestors p).map (.decision · p d') ++ calls ++ rest
        sent := s.sent ++ [(p, d')]
        node := Function.update s.node p
          { (s.node p).store (i = l) d with runStatus := .completed } }
  /-- A leaf task runs. -/
  | ran {k i} (hagenda : s.agenda = []) (htask : s.tasks[k]? = some i) :
      Moves a s { s with
        agenda := (g.requestors i).map (.decision · i (a.status i))
        tasks := s.tasks.eraseIdx k
        sent := s.sent ++ [(i, a.status i)]
        node := Function.update s.node i { s.node i with runStatus := .completed } }

@[simp] lemma store_runStatus (n : NodeState) (fromLeft : Bool) (d : ControlFlowStatus) :
    (n.store fromLeft d).runStatus = n.runStatus := by
  cases fromLeft <;> rfl

@[simp] lemma store_willNotRunRequests (n : NodeState) (fromLeft : Bool) (d : ControlFlowStatus) :
    (n.store fromLeft d).willNotRunRequests = n.willNotRunRequests := by
  cases fromLeft <;> rfl

@[simp] lemma store_decisionsFromComposites (n : NodeState) (fromLeft : Bool)
    (d : ControlFlowStatus) :
    (n.store fromLeft d).decisionsFromComposites = n.decisionsFromComposites + 1 := by
  cases fromLeft <;> rfl

@[simp] lemma store_leftDecision (n : NodeState) (fromLeft : Bool) (d : ControlFlowStatus) :
    (n.store fromLeft d).leftDecision = if fromLeft then d else n.leftDecision := by
  cases fromLeft <;> rfl

@[simp] lemma store_rightDecision (n : NodeState) (fromLeft : Bool) (d : ControlFlowStatus) :
    (n.store fromLeft d).rightDecision = if fromLeft then n.rightDecision else d := by
  cases fromLeft <;> rfl

/-- The branches of `requestDecisionAsync`. -/
lemma moves_request {i : Fin g.size} {σ : RequestState} {rest : List (Call (Fin g.size))}
    (hagenda : s.agenda = .request i σ :: rest) :
    Moves a s { (requestDecisionAsync { s with agenda := rest } i σ).1 with
      agenda := (requestDecisionAsync { s with agenda := rest } i σ).2 ++ rest } := by
  unfold requestDecisionAsync
  by_cases hstatus : (s.node i).runStatus = .notStarted
  · cases σ with
    | requestDecision =>
      simp only [hstatus, if_true, makeDecisionAsync, State.setNode]
      split
      next hkind =>
        simpa [RequestState.runStatus, RequestState.count]
          using Moves.madeLeaf (a := a) hagenda hstatus hkind (by simp)
      next logic l r hkind =>
        simpa [RequestState.count] using Moves.madeBinary (a := a) hagenda hstatus hkind (by simp)
    | noRequestComing =>
      rw [if_neg (by simp)]
      by_cases hcount : (s.node i).willNotRunRequests + 1 = (g.requestors i).length
      · simp only [hstatus, hcount, if_true, makeDecisionAsync, State.setNode]
        split
        next hkind =>
          simpa [RequestState.runStatus, RequestState.count, hcount]
            using Moves.madeLeaf (a := a) hagenda hstatus hkind fun _ => hcount
        next logic l r hkind =>
          simpa [RequestState.count, hcount]
            using Moves.madeBinary (a := a) hagenda hstatus hkind fun _ => hcount
      · simpa [hstatus, hcount, State.setNode] using Moves.counted (a := a) hagenda hstatus hcount
  · cases σ <;> simpa [hstatus] using Moves.ignored (a := a) hagenda hstatus

/-- The branches of `decisionFromNodeAsync` of a binary node. -/
lemma moves_decision {p i : Fin g.size} {d : ControlFlowStatus} {rest : List (Call (Fin g.size))}
    (hagenda : s.agenda = .decision (.node p) i d :: rest) :
    Moves a s { (decisionFromNodeAsync { s with agenda := rest } i d (.node p)).1 with
      agenda := (decisionFromNodeAsync { s with agenda := rest } i d (.node p)).2 ++ rest } := by
  cases hkind : g.kind p with
  | leaf => simpa [decisionFromNodeAsync, hkind] using Moves.stray (a := a) hagenda hkind
  | binary logic l r =>
    simp only [decisionFromNodeAsync, hkind]
    by_cases hstatus : (s.node p).runStatus = .inProgress
    · by_cases hcount : (s.node p).decisionsFromComposites + 1 = 2
      · have hdecides : Decides logic r ((s.node p).store (i = l) d) (i = l) _ [] :=
          .full (by simpa using hcount)
        simpa [hstatus, hcount, sendDecisionToRequestorsAsync, State.setNode]
          using Moves.decided (a := a) hagenda hkind hstatus hdecides
      · by_cases hleft : i = l
        · subst hleft
          by_cases hshort : logic.shortCircuitLogic d = .notStarted
          · simpa [hstatus, hcount, hshort, State.setNode]
              using Moves.asked (a := a) hagenda hkind hstatus (by omega) hshort
          · have hdecides : Decides logic r ((s.node p).store (i = i) d) (i = i) _ _ :=
              .left (by simpa using hcount) (by simp) (by simpa using hshort)
            simpa [hstatus, hcount, hshort, sendDecisionToRequestorsAsync, State.setNode]
              using Moves.decided (a := a) hagenda hkind hstatus hdecides
        · by_cases hshort : logic.shortCircuitLogic d = .notStarted
          · have hwaits : Waits logic ((s.node p).store (i = l) d) (i = l) :=
              .inr ⟨by simpa using hcount, by simpa using hleft, by simpa [hleft] using hshort⟩
            simpa [hstatus, hcount, hleft, hshort, State.setNode]
              using Moves.stored (a := a) hagenda hkind hwaits
          · have hdecides : Decides logic r ((s.node p).store (i = l) d) (i = l) _ [] :=
              .right (by simpa using hcount) (by simpa using hleft) (by simpa [hleft] using hshort)
            simpa [hstatus, hcount, hleft, hshort, sendDecisionToRequestorsAsync, State.setNode]
              using Moves.decided (a := a) hagenda hkind hstatus hdecides
    · have hwaits : Waits logic ((s.node p).store (i = l) d) (i = l) := .inl (by simpa using hstatus)
      simpa [hstatus, State.setNode] using Moves.stored (a := a) hagenda hkind hwaits

/-- **Inversion.** Every step is one of these branches. -/
theorem moves {b : Label} (h : step a s b = some s') : Moves a s s' := by
  cases b with
  | call =>
    simp only [step] at h
    split at h
    next c rest hagenda =>
      obtain rfl := Option.some.inj h
      cases c with
      | request i σ => exact moves_request hagenda
      | decision requestor i d =>
        cases requestor with
        | start => exact .finished hagenda
        | node p => exact moves_decision hagenda
    next => cases h
  | task k =>
    simp only [step] at h
    split at h
    next i hagenda htask =>
      obtain rfl := Option.some.inj h
      simpa [runLeafTask, sendDecisionToRequestorsAsync, State.setNode]
        using Moves.ran (a := a) hagenda htask
    next => cases h

end UnifyPrototype.ControlFlow
