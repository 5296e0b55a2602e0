import UnifyPrototype.ControlFlow.Model
import UnifyPrototype.Utils.Tally

/-!
# The task that waits for a decision graph

Every call in a decision graph is given a `WaitingTaskHolder` by value: a copy of the caller's
`task`, or the caller's own by `std::move`. Here the calls of `ControlFlow/Model.lean` are made with
it. A function that has come to its next call is a frame, and a leaf task has the holder that its
lambda captured. To copy an empty holder is to use a null pointer, so such a call is not possible.
-/

namespace UnifyPrototype.ControlFlow

open UnifyPrototype.Utils

/-! ## Frames -/

/-- How the holder is passed: `task` or `std::move(task)`. -/
inductive Pass
  | copy
  | move
deriving DecidableEq, Repr

/-- A function that has not returned: whether its parameter `task` still has the task, and the calls
that it has to make. -/
structure Frame (N : Type) where
  hasTask : Bool
  calls : List (Call N × Pass) := []
deriving DecidableEq, Repr

/-- The loop of `sendDecisionToRequestorsAsync_` and of `startAsync`: each call gets a copy. -/
def Frame.loop {N : Type} (hasTask : Bool) (calls : List (Call N)) : Frame N :=
  ⟨hasTask, calls.map (·, .copy)⟩

/-- What a function has done when it comes to its first call of another object: the new frames,
innermost first, how many copies of its parameter it has made, and what was captured by the lambda
of a task that it has queued. -/
structure Entered (g : DecisionGraph) where
  graph : State g
  frames : List (Frame (Fin g.size))
  copies : ℕ := 0
  captured : List Bool := []

variable {g : DecisionGraph}

/-! ## The member functions with their parameter `task` -/

/-- `makeDecisionAsync_` of a `BinaryDecisionNode` and of a leaf, which moves its parameter into the
lambda that it queues. -/
def makeDecisionAsyncWith (hasTask : Bool) (s : State g) (i : Fin g.size) (state : RequestState) :
    Entered g :=
  let s := { s with made := s.made ++ [(i, state)] }
  match g.kind i with
  | .leaf =>
    if state = .noRequestComing then ⟨s, [⟨hasTask, []⟩], 0, []⟩
    else ⟨{ s with tasks := s.tasks ++ [i] }, [⟨false, []⟩], 0, [hasTask]⟩
  | .binary _ l r =>
    ⟨s.setNode i { s.node i with requestCallsToComposites := 1, runStatus := .inProgress },
      [⟨hasTask, (.request l state, .copy) ::
        if state = .noRequestComing then [(.request r state, .move)] else []⟩], 0, []⟩

/-- `DecisionNodeBase::requestDecisionAsync`, which moves its parameter on to `makeDecisionAsync_`. -/
def requestDecisionAsyncWith (hasTask : Bool) (s : State g) (i : Fin g.size)
    (state : RequestState) : Entered g :=
  let s := { s with received := s.received ++ [(i, state)] }
  let n := s.node i
  if state = .requestDecision then
    if n.runStatus = .notStarted then
      makeDecisionAsyncWith hasTask (s.setNode i { n with runStatus := .shouldRun }) i state
    else ⟨s, [⟨hasTask, []⟩], 0, []⟩
  else
    if n.runStatus = .notStarted then
      let n := { n with willNotRunRequests := n.willNotRunRequests + 1 }
      if n.willNotRunRequests = (g.requestors i).length then
        makeDecisionAsyncWith hasTask (s.setNode i { n with runStatus := .willNotRun }) i state
      else ⟨s.setNode i n, [⟨hasTask, []⟩], 0, []⟩
    else ⟨s, [⟨hasTask, []⟩], 0, []⟩

/-- `DecisionNodeBase::sendDecisionToRequestorsAsync_`. -/
def sendDecisionToRequestorsAsyncWith (hasTask : Bool) (s : State g) (i : Fin g.size)
    (d : ControlFlowStatus) : State g × Frame (Fin g.size) :=
  let (s, calls) := sendDecisionToRequestorsAsync s i d
  (s, .loop hasTask calls)

/-- `decisionFromNodeAsync` of a `StartDecisionGraph` and of a `BinaryDecisionNode`. Only the short
circuit to the left keeps `task` while the decision is sent. -/
def decisionFromNodeAsyncWith (hasTask : Bool) (s : State g) (i : Fin g.size)
    (d : ControlFlowStatus) : Requestor (Fin g.size) → Entered g
  | .start => ⟨{ s with finishedLeafNodes := s.finishedLeafNodes + 1 }, [⟨hasTask, []⟩], 0, []⟩
  | .node p =>
    match g.kind p with
    | .leaf => ⟨s, [⟨hasTask, []⟩], 0, []⟩
    | .binary logic l r =>
      let n := (s.node p).store (i = l) d
      let s := s.setNode p n
      if n.runStatus = .inProgress then
        if n.decisionsFromComposites = 2 then
          let (s, loop) := sendDecisionToRequestorsAsyncWith hasTask s p
            (logic.fullDecisionLogic n.leftDecision n.rightDecision)
          ⟨s, [loop, ⟨false, []⟩], 0, []⟩
        else if i = l then
          let shortCircuit := logic.shortCircuitLogic n.leftDecision
          if shortCircuit ≠ .notStarted then
            let (s, loop) := sendDecisionToRequestorsAsyncWith true s p shortCircuit
            ⟨s, [loop, ⟨hasTask, [(.request r .noRequestComing, .move)]⟩], 1, []⟩
          else ⟨s, [⟨hasTask, [(.request r .requestDecision, .move)]⟩], 0, []⟩
        else
          let shortCircuit := logic.shortCircuitLogic n.rightDecision
          if shortCircuit ≠ .notStarted then
            let (s, loop) := sendDecisionToRequestorsAsyncWith hasTask s p shortCircuit
            ⟨s, [loop, ⟨false, []⟩], 0, []⟩
          else ⟨s, [⟨hasTask, []⟩], 0, []⟩
      else ⟨s, [⟨hasTask, []⟩], 0, []⟩

/-- The task that a leaf has queued. Its lambda is not `mutable`, so `std::move` of what it captured
makes a copy. -/
def runLeafTaskWith (hasTask : Bool) (a : Assignment g) (s : State g) (i : Fin g.size) : Entered g :=
  let (s, loop) := sendDecisionToRequestorsAsyncWith true
    (s.setNode i { s.node i with runStatus := .inProgress }) i (a.status i)
  ⟨s, [loop, ⟨hasTask, []⟩], 1, []⟩

/-- A call. -/
def Call.enter (hasTask : Bool) (s : State g) : Call (Fin g.size) → Entered g
  | .request i state => requestDecisionAsyncWith hasTask s i state
  | .decision requestor i d => decisionFromNodeAsyncWith hasTask s i d requestor

/-! ## The program -/

/-- The graph; the functions that have not returned, innermost first; what the lambdas of the
pending leaf tasks have captured; the reference count of the waiting task, how many of its holders
are elsewhere, and how often it was handed to its group. -/
structure Program (g : DecisionGraph) where
  graph : State g
  frames : List (Frame (Fin g.size)) := []
  captured : List Bool := []
  refCount : ℕ := 0
  outside : ℕ := 0
  spawned : ℕ := 0

/-- A holder of the task is destroyed: `doneWaiting` with no exception. An empty one does nothing. -/
def Program.destroy (p : Program g) (hasTask : Bool) : Program g :=
  if hasTask then
    let refCount := p.refCount - 1
    { p with
      refCount := refCount
      spawned := if 0 = refCount then p.spawned + 1 else p.spawned }
  else p

/-- A function is entered. Its copies of an empty holder are not possible. -/
def Program.enter (p : Program g) (hasTask : Bool) (e : Entered g) : Option (Program g) :=
  if e.copies = 0 ∨ hasTask = true then
    some { p with
      graph := e.graph
      frames := e.frames ++ p.frames
      captured := p.captured ++ e.captured
      refCount := p.refCount + e.copies }
  else none

/-- The moves: the innermost function makes its next call or returns; when there is none, one of the
pending tasks runs; a holder elsewhere is destroyed. -/
inductive Move
  | call
  | ret
  | task (k : ℕ)
  | letGo
deriving DecidableEq, Repr

/-- One step of the program. -/
def Program.step (a : Assignment g) (p : Program g) : Move → Option (Program g)
  | .call =>
    match p.frames with
    | ⟨hasTask, (c, .copy) :: calls⟩ :: below =>
      -- the copy constructor increments through the pointer
      if hasTask then
        { p with frames := ⟨hasTask, calls⟩ :: below, refCount := p.refCount + 1 }.enter true
          (c.enter true p.graph)
      else none
    | ⟨hasTask, (c, .move) :: calls⟩ :: below =>
      { p with frames := ⟨false, calls⟩ :: below }.enter hasTask (c.enter hasTask p.graph)
    | _ => none
  | .ret =>
    match p.frames with
    | ⟨hasTask, []⟩ :: below => some ({ p with frames := below }.destroy hasTask)
    | _ => none
  | .task k =>
    match p.frames, p.captured[k]?, p.graph.tasks[k]? with
    | [], some hasTask, some i =>
      { p with captured := p.captured.eraseIdx k }.enter hasTask
        (runLeafTaskWith hasTask a { p.graph with tasks := p.graph.tasks.eraseIdx k } i)
    | _, _, _ => none
  | .letGo =>
    if p.outside = 0 then none else some ({ p with outside := p.outside - 1 }.destroy true)

/-- `startAsync` has been called with a holder; there are `outside` others. -/
def Program.start (s : State g) (outside : ℕ) : Program g where
  graph := s
  frames := [.loop true (g.leafNodes.map (.request · .requestDecision))]
  refCount := outside + 1
  outside := outside

end UnifyPrototype.ControlFlow
