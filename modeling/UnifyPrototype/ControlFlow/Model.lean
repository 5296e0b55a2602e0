import Mathlib.Data.List.Count
import Mathlib.Logic.Function.Basic
import UnifyPrototype.Utils.Runs

/-!
# Decision graphs

A shallow embedding of `ControlFlow`: decision nodes ask their children for decisions and get them
by callbacks. All calls run to completion on one thread, so the calls that are still to be made are
a list, first call first (`agenda`); the body of a call changes the members of one node and puts
the calls it makes in front. The tasks that leaves have queued run when no call is left, in any
order.
-/

namespace UnifyPrototype.ControlFlow

open UnifyPrototype.Utils

/-! ## Enumerations and logic -/

inductive ControlFlowStatus
  | notStarted
  | go
  | skip
  | exception
deriving DecidableEq, Repr

inductive RequestState
  | requestDecision
  | noRequestComing
deriving DecidableEq, Repr

inductive RunStatus
  | notStarted
  | inProgress
  | completed
  | willNotRun
  | shouldRun
deriving DecidableEq, Repr

/-- `AndDecisionNode` or `OrDecisionNode`. -/
inductive Logic
  | and
  | or
deriving DecidableEq, Repr

/-- `fullDecisionLogic_` of `AndDecisionNode` and of `OrDecisionNode`. -/
def Logic.fullDecisionLogic (left right : ControlFlowStatus) : Logic → ControlFlowStatus
  | .and =>
    if left = .exception ∨ right = .exception then .exception
    else if left = .go ∧ right = .go then .go
    else .skip
  | .or =>
    if left = .exception ∨ right = .exception then .exception
    else if left = .go ∨ right = .go then .go
    else .skip

/-- `shortCircuitLogic_` of `AndDecisionNode` and of `OrDecisionNode`. -/
def Logic.shortCircuitLogic (decision : ControlFlowStatus) : Logic → ControlFlowStatus
  | .and =>
    if decision = .exception then .exception
    else if decision = .skip then .skip
    else .notStarted
  | .or =>
    if decision = .exception then .exception
    else if decision = .go then .go
    else .notStarted

/-! ## Graphs -/

/-- What a node is: a leaf such as `DummyDecisionNode`, or a `BinaryDecisionNode`. -/
inductive Kind (N : Type)
  | leaf
  | binary (logic : Logic) (leftNode rightNode : N)
deriving DecidableEq, Repr

/-- The composites: the left one and the right one, which may be the same node. -/
def Kind.composites {N : Type} : Kind N → List N
  | .leaf => []
  | .binary _ l r => [l, r]

/-- The composites of node `p` were constructed before it. -/
def Kind.Ordered {n : ℕ} (p : Fin n) (k : Kind (Fin n)) : Prop :=
  ∀ i ∈ k.composites, i < p

instance {n : ℕ} (p : Fin n) (k : Kind (Fin n)) : Decidable (k.Ordered p) :=
  inferInstanceAs (Decidable (∀ i ∈ k.composites, i < p))

/-- A `DecisionRequestorBase`: the `StartDecisionGraph` or a binary node. -/
inductive Requestor (N : Type)
  | start
  | node (p : N)
deriving DecidableEq, Repr

/-- A graph of decision nodes, numbered in the order of their construction: the children of a node
exist before it does. `leafNodes` are those given to `addLeafNode`. The `requestors` of a node are
in the order in which they were added, whatever that was: one entry for each time it is a composite
and one for each `addLeafNode`. -/
structure DecisionGraph where
  size : ℕ
  kind : Fin size → Kind (Fin size)
  leafNodes : List (Fin size)
  requestors : Fin size → List (Requestor (Fin size))
  ordered : ∀ p, (kind p).Ordered p
  count_start : ∀ i, (requestors i).count .start = leafNodes.count i
  count_node : ∀ i p, (requestors i).count (.node p) = (kind p).composites.count i

namespace DecisionGraph

variable {g : DecisionGraph} {p : Fin g.size} {logic : Logic} {l r : Fin g.size}

/-- Children are older than their parents. -/
lemma left_lt (h : g.kind p = .binary logic l r) : l < p :=
  g.ordered p l (by simp [h, Kind.composites])

lemma right_lt (h : g.kind p = .binary logic l r) : r < p :=
  g.ordered p r (by simp [h, Kind.composites])

/-- The two composites of every binary node are distinct. -/
def Distinct (g : DecisionGraph) : Prop :=
  ∀ p, (g.kind p).composites.Nodup

instance (g : DecisionGraph) : Decidable g.Distinct :=
  inferInstanceAs (Decidable (∀ p, (g.kind p).composites.Nodup))

/-- The two composites of a node are two nodes. -/
lemma Distinct.left_ne_right (hg : g.Distinct) (h : g.kind p = .binary logic l r) : l ≠ r := by
  have hp := hg p
  rw [h] at hp
  simpa [Kind.composites] using hp

/-- The requestors of a node are its parents and the `StartDecisionGraph`. -/
lemma mem_composites_of_requestor {i : Fin g.size} (h : .node p ∈ g.requestors i) :
    i ∈ (g.kind p).composites := by
  rw [← List.count_pos_iff, ← g.count_node]
  exact List.count_pos_iff.mpr h

/-- A node is a requestor of each of its composites. -/
lemma mem_requestors {i : Fin g.size} (h : i ∈ (g.kind p).composites) :
    .node p ∈ g.requestors i := by
  rw [← List.count_pos_iff, g.count_node]
  exact List.count_pos_iff.mpr h

end DecisionGraph

/-- The decisions that the leaves of a graph will send. -/
structure Assignment (g : DecisionGraph) where
  status : Fin g.size → ControlFlowStatus
  status_ne : ∀ i, status i ≠ .notStarted

/-- All leaves decide alike. -/
def Assignment.const (g : DecisionGraph) (d : ControlFlowStatus) (hd : d ≠ .notStarted) :
    Assignment g where
  status _ := d
  status_ne _ := hd

/-! ## State -/

/-- The data members of a `DecisionNodeBase` and of a `BinaryDecisionNode`. The counters are natural
numbers: `willNotRunRequests_shows` and `decisionsFromComposites_shows` say when the words of the code
show them. -/
structure NodeState where
  runStatus : RunStatus := .notStarted
  willNotRunRequests : ℕ := 0
  decisionsFromComposites : ℕ := 0
  requestCallsToComposites : ℕ := 0
  leftDecision : ControlFlowStatus := .notStarted
  rightDecision : ControlFlowStatus := .notStarted
deriving DecidableEq, Repr

/-- A call: `requestDecisionAsync` of a node, or `decisionFromNodeAsync` of a requestor with the
node that decided and its decision. -/
inductive Call (N : Type)
  | request (i : N) (state : RequestState)
  | decision (requestor : Requestor N) (i : N) (d : ControlFlowStatus)
deriving DecidableEq, Repr

/-- The nodes, `finishedLeafNodes_` of the `StartDecisionGraph`, the calls still to be made and the
leaf tasks that are pending. The last three record the calls of `requestDecisionAsync`,
`makeDecisionAsync_` and `sendDecisionToRequestorsAsync_` of this transition; no call reads them. -/
structure State (g : DecisionGraph) where
  node : Fin g.size → NodeState := fun _ => {}
  finishedLeafNodes : ℕ := 0
  agenda : List (Call (Fin g.size)) := []
  tasks : List (Fin g.size) := []
  received : List (Fin g.size × RequestState) := []
  made : List (Fin g.size × RequestState) := []
  sent : List (Fin g.size × ControlFlowStatus) := []

variable {g : DecisionGraph}

/-- Node `i` has the data members `n`. -/
def State.setNode (s : State g) (i : Fin g.size) (n : NodeState) : State g :=
  { s with node := Function.update s.node i n }

/-! ## The member functions

Each of them gives the new state and the calls that it makes, in order. -/

/-- `makeDecisionAsync_` of a `BinaryDecisionNode`, and of a leaf that queues one task when it is
asked for its decision. -/
def makeDecisionAsync (s : State g) (i : Fin g.size) (state : RequestState) :
    State g × List (Call (Fin g.size)) :=
  let s := { s with made := s.made ++ [(i, state)] }
  match g.kind i with
  | .leaf =>
    if state = .noRequestComing then (s, []) else ({ s with tasks := s.tasks ++ [i] }, [])
  | .binary _ l r =>
    (s.setNode i { s.node i with requestCallsToComposites := 1, runStatus := .inProgress },
      .request l state :: if state = .noRequestComing then [.request r state] else [])

/-- `DecisionNodeBase::requestDecisionAsync`. -/
def requestDecisionAsync (s : State g) (i : Fin g.size) (state : RequestState) :
    State g × List (Call (Fin g.size)) :=
  let s := { s with received := s.received ++ [(i, state)] }
  let n := s.node i
  if state = .requestDecision then
    if n.runStatus = .notStarted then
      makeDecisionAsync (s.setNode i { n with runStatus := .shouldRun }) i state
    else (s, [])
  else
    if n.runStatus = .notStarted then
      let n := { n with willNotRunRequests := n.willNotRunRequests + 1 }
      if n.willNotRunRequests = (g.requestors i).length then
        makeDecisionAsync (s.setNode i { n with runStatus := .willNotRun }) i state
      else (s.setNode i n, [])
    else (s, [])

/-- `DecisionNodeBase::sendDecisionToRequestorsAsync_`. -/
def sendDecisionToRequestorsAsync (s : State g) (i : Fin g.size) (d : ControlFlowStatus) :
    State g × List (Call (Fin g.size)) :=
  let n := s.node i
  let n := if n.runStatus ≠ .willNotRun then { n with runStatus := .completed } else n
  ({ s.setNode i n with sent := s.sent ++ [(i, d)] }, (g.requestors i).map (.decision · i d))

/-- What `BinaryDecisionNode::decisionFromNodeAsync` stores: the decision and that there is one
more. -/
def NodeState.store (n : NodeState) (fromLeft : Bool) (d : ControlFlowStatus) : NodeState :=
  let n := if fromLeft then { n with leftDecision := d } else { n with rightDecision := d }
  { n with decisionsFromComposites := n.decisionsFromComposites + 1 }

/-- `decisionFromNodeAsync` of a `StartDecisionGraph` and of a `BinaryDecisionNode`. -/
def decisionFromNodeAsync (s : State g) (i : Fin g.size) (d : ControlFlowStatus) :
    Requestor (Fin g.size) → State g × List (Call (Fin g.size))
  | .start => ({ s with finishedLeafNodes := s.finishedLeafNodes + 1 }, [])
  | .node p =>
    match g.kind p with
    | .leaf => (s, [])
    | .binary logic l r =>
      let n := (s.node p).store (i = l) d
      let s := s.setNode p n
      if n.runStatus = .inProgress then
        if n.decisionsFromComposites = 2 then
          sendDecisionToRequestorsAsync s p (logic.fullDecisionLogic n.leftDecision n.rightDecision)
        else if i = l then
          let shortCircuit := logic.shortCircuitLogic n.leftDecision
          if shortCircuit ≠ .notStarted then
            let (s, calls) := sendDecisionToRequestorsAsync s p shortCircuit
            (s, calls ++ [.request r .noRequestComing])
          else (s, [.request r .requestDecision])
        else
          let shortCircuit := logic.shortCircuitLogic n.rightDecision
          if shortCircuit ≠ .notStarted then sendDecisionToRequestorsAsync s p shortCircuit
          else (s, [])
      else (s, [])

/-- The task that a leaf has queued. -/
def runLeafTask (a : Assignment g) (s : State g) (i : Fin g.size) :
    State g × List (Call (Fin g.size)) :=
  sendDecisionToRequestorsAsync (s.setNode i { s.node i with runStatus := .inProgress }) i (a.status i)

/-- A call. -/
def Call.run (s : State g) : Call (Fin g.size) → State g × List (Call (Fin g.size))
  | .request i state => requestDecisionAsync s i state
  | .decision requestor i d => decisionFromNodeAsync s i d requestor

/-! ## Transitions -/

/-- The moves of a transition: the next call, or, when there is none, one of the pending tasks. -/
inductive Label
  | call
  | task (k : ℕ)
deriving DecidableEq, Repr

/-- One step of a transition. -/
def step (a : Assignment g) (s : State g) : Label → Option (State g)
  | .call =>
    match s.agenda with
    | c :: rest =>
      let (s', calls) := c.run { s with agenda := rest }
      some { s' with agenda := calls ++ rest }
    | [] => none
  | .task k =>
    match s.agenda, s.tasks[k]? with
    | [], some i =>
      let (s', calls) := runLeafTask a { s with tasks := s.tasks.eraseIdx k } i
      some { s' with agenda := calls }
    | _, _ => none

/-- `StartDecisionGraph::startAsync`. -/
def startAsync (s : State g) : State g :=
  { s with agenda := g.leafNodes.map (.request · .requestDecision) }

/-- `resetForNewTransition` on every node; the records begin anew. -/
def resetForNewTransition (s : State g) : State g :=
  { s with
    node := fun i => { s.node i with
      runStatus := if g.requestors i = [] then .shouldRun else .notStarted
      willNotRunRequests := 0 }
    received := [], made := [], sent := [] }

/-- No leaf task is pending and no call is left to be made. -/
def State.Quiet (s : State g) : Prop :=
  s.agenda = [] ∧ s.tasks = []

instance (s : State g) : Decidable s.Quiet :=
  inferInstanceAs (Decidable (_ ∧ _))

/-- One transition, from the state before `startAsync` to a state in which nothing is pending. -/
structure Transition (a : Assignment g) (s s' : State g) : Prop where
  run : Reaches (step a) (startAsync s) s'
  quiet : s'.Quiet

end UnifyPrototype.ControlFlow
