import UnifyPrototype.WaitingTask.Model
import Mathlib.Logic.Function.Basic

/-!
# Chains of waiting tasks

A shallow embedding of `chain_first.h`. A chain holds its newest stage on the outside; `lastTask`
turns it into tasks, the last stage first, each of which has the functor of its stage and the holder
of the task after it. What the functors do with their holders is free. A call of
`dependentTaskFailed` is one step here, and the decrement of `doneWaiting` is another one.
-/

namespace UnifyPrototype.ChainFirst

open UnifyPrototype.Utils

/-! ## Chains -/

/-- The functors that are given to `first`, `then` and `ifThen`: of one argument, `ifException(E)`
with its `else_(F)`, and of two arguments. `N` names the functors. -/
inductive Stage (N : Type)
  | oneArgument (f : N)
  | ifException (except f : N)
  | twoArguments (f : N)
deriving DecidableEq, Repr

/-- What a task calls with the exception pointer and the holder. -/
inductive Handler (N : Type)
  | autoExceptionHandler (f : N)
  | explicitExceptionHandler (except f : N)
  | functor (f : N)
deriving DecidableEq, Repr

variable {N E : Type}

/-- The choice by `has_exception_handling`; `else_` makes a functor of two arguments. -/
def Stage.handler : Stage N → Handler N
  | .oneArgument f => .autoExceptionHandler f
  | .ifException except f => .explicitExceptionHandler except f
  | .twoArguments f => .functor f

/-- `WaitingTaskChain`: of one stage, and with another stage or a conditional one in front. -/
inductive WaitingTaskChain (N : Type)
  | single (f : Handler N)
  | cons (f : Handler N) (l : WaitingTaskChain N)
  | conditional (condition : Bool) (f : Handler N) (l : WaitingTaskChain N)
deriving DecidableEq, Repr

def first (f : Stage N) : WaitingTaskChain N :=
  .single f.handler

/-- `then(f)` and `ifThen(value, f)`. -/
inductive Link (N : Type)
  | then (f : Stage N)
  | ifThen (value : Bool) (f : Stage N)
deriving DecidableEq, Repr

/-- `operator|` with a stage. -/
def WaitingTaskChain.pipe (chain : WaitingTaskChain N) : Link N → WaitingTaskChain N
  | .then f => .cons f.handler chain
  | .ifThen value f => .conditional value f.handler chain

/-- `first(f) | links[0] | links[1] | ...`. -/
def chainOf (f : Stage N) (links : List (Link N)) : WaitingTaskChain N :=
  links.foldl WaitingTaskChain.pipe (first f)

/-! ## The state -/

/-- The functor of a `make_waiting_task`: it calls `f` with the holder `v`, given by its task. -/
structure Lambda (N : Type) where
  f : Handler N
  v : ℕ
deriving DecidableEq, Repr

/-- A functor of the user is called: `f(h)`, `E(e)`, or `f(iPtr, h)`. -/
inductive Call (N E : Type)
  | run (f : N)
  | except (f : N) (e : E)
  | runWith (f : N) (iPtr : Option E)
deriving DecidableEq, Repr

/-- The handlers at work: `doneWaiting(*iPtr)`, the functor of a `try`, `doneWaiting` in its `catch`,
and the decrement of `doneWaiting`, all for a holder of the task `t`. -/
inductive Point (E : Type)
  | forward (t : ℕ) (e : E)
  | running (t : ℕ)
  | caught (t : ℕ) (e : E)
  | release (t : ℕ)
deriving DecidableEq, Repr

/-- The tasks, with their functors unless they come from outside; how many holders of each task the
functors have, copies included; the tasks handed to the group; and the handlers at work. The rest
records the tasks that were executed with the exception that each found, the functors called, and the
failures that functors reported to each task. -/
structure State (N E : Type) where
  size : ℕ := 0
  lambda : ℕ → Option (Lambda N) := fun _ => none
  task : ℕ → WaitingTask.Task E := fun _ => {}
  held : ℕ → ℕ := fun _ => 0
  group : List ℕ := []
  points : List (Point E) := []
  started : List (ℕ × Option E) := []
  calls : List (Call N E) := []
  reports : ℕ → List E := fun _ => []

/-- `dependentTaskFailed` with an exception. -/
def dependentTaskFailed (m : WaitingTask.Task E) (e : E) : WaitingTask.Task E :=
  if m.ptrSet = .unset then { m with ptr := some e, ptrSet := .set } else m

/-- The task `t` is now `m`. -/
def State.setTask (s : State N E) (t : ℕ) (m : WaitingTask.Task E) : State N E :=
  { s with task := Function.update s.task t m }

/-- A handler comes to its next operation. -/
def State.addPoint (s : State N E) (p : Point E) : State N E :=
  { s with points := s.points ++ [p] }

/-- A functor is called. -/
def State.addCall (s : State N E) (c : Call N E) : State N E :=
  { s with calls := s.calls ++ [c] }

/-- A functor is given a holder. -/
def State.give (s : State N E) (t : ℕ) : State N E :=
  { s with held := Function.update s.held t (s.held t + 1) }

/-- `increment_ref_count`. -/
def State.increment (s : State N E) (t : ℕ) : State N E :=
  s.setTask t (s.task t).incrementRefCount

/-- `decrement_ref_count`, and `run` if it returns zero. -/
def State.decrement (s : State N E) (t : ℕ) : State N E :=
  let (m, refCount) := (s.task t).decrementRefCount
  { s.setTask t m with group := if 0 = refCount then s.group ++ [t] else s.group }

/-! ## `lastTask` -/

/-- `WaitingTaskHolder(group, make_waiting_task(...))`, with the number of the new task. -/
def State.makeWaitingTask (s : State N E) (f : Handler N) (v : ℕ) : State N E × ℕ :=
  ({ s with
      size := s.size + 1
      lambda := Function.update s.lambda s.size (some ⟨f, v⟩)
      task := Function.update s.task s.size (WaitingTask.Task.incrementRefCount {}) }, s.size)

/-- `lastTask`: given the task of the holder `iV`, the task of the holder that it returns. A stage
whose condition is false copies `iV`, which is destroyed in the end. -/
def WaitingTaskChain.lastTask : WaitingTaskChain N → State N E → ℕ → State N E × ℕ
  | .single f, s, iV => s.makeWaitingTask f iV
  | .cons f l, s, iV =>
    let (s, h) := s.makeWaitingTask f iV
    l.lastTask s h
  | .conditional true f l, s, iV =>
    let (s, h) := s.makeWaitingTask f iV
    l.lastTask s h
  | .conditional false _ l, s, iV =>
    let (s, h) := l.lastTask (s.increment iV) iV
    (s.decrement iV, h)

/-- `doneWaiting`. -/
def doneWaiting (t : ℕ) : Option E → Point E
  | some e => .forward t e
  | none => .release t

/-- The task 0 with one holder, which the chain is given. -/
def initial : State N E :=
  { size := 1, task := Function.update (fun _ => {}) 0 { refCount := 1 } }

/-- `doneWaiting(x)` is called on the holder that `chain | lastTask(...)` returns. -/
def WaitingTaskChain.start (chain : WaitingTaskChain N) (x : Option E) : State N E :=
  let (s, h) := chain.lastTask initial 0
  s.addPoint (doneWaiting h x)

/-! ## Steps -/

/-- A functor of one argument is called with a copy of the handler's holder. -/
def State.invoke (s : State N E) (f : N) (h : ℕ) : State N E :=
  (((s.addCall (.run f)).increment h).give h).addPoint (.running h)

/-- `operator()` of the handlers, up to where something else may happen. A functor of two arguments
gets the holder itself. -/
def State.handle (s : State N E) : Handler N → Option E → ℕ → State N E
  | .autoExceptionHandler _, some e, h => s.addPoint (.forward h e)
  | .autoExceptionHandler f, none, h => s.invoke f h
  | .explicitExceptionHandler except _, some e, h =>
    (s.addCall (.except except e)).addPoint (.forward h e)
  | .explicitExceptionHandler _ f, none, h => s.invoke f h
  | .functor f, iPtr, h => (s.addCall (.runWith f iPtr)).give h

/-- The group executes the task `t`. -/
def State.execute (s : State N E) (t : ℕ) : State N E :=
  let iPtr := (s.task t).uncheckedExceptionPtr
  let s := { s with started := s.started ++ [(t, iPtr)] }
  match s.lambda t with
  | some ⟨f, v⟩ => s.handle f iPtr v
  | none => s

/-- A functor reports `e` to the task `t`, with `presetTaskAsFailed` or `doneWaiting`, or by throwing
it. -/
def State.report (s : State N E) (t : ℕ) (e : E) : State N E :=
  { s.setTask t (dependentTaskFailed (s.task t) e) with
    reports := Function.update s.reports t (s.reports t ++ [e]) }

/-- The next operation of a handler. -/
def Point.step (s : State N E) : Point E → Option (State N E × Option (Point E))
  | .forward t e => some (s.setTask t (dependentTaskFailed (s.task t) e), some (.release t))
  | .running _ => none
  | .caught t e => some (s.report t e, some (.release t))
  | .release t => some (s.decrement t, none)

/-- The moves: the group executes its `k`-th task; the `k`-th handler makes its next operation; its
functor returns or throws; somebody with a holder of the task `t` that a functor was given copies it,
reports a failure or lets go of it. -/
inductive Label (E : Type)
  | group (k : ℕ)
  | advance (k : ℕ)
  | returns (k : ℕ)
  | throws (k : ℕ) (e : E)
  | copy (t : ℕ)
  | report (t : ℕ) (e : E)
  | letGo (t : ℕ)
deriving DecidableEq, Repr

/-- Handler `k` is now at `p`, or has returned. -/
def State.goto (k : ℕ) (r : State N E × Option (Point E)) : State N E :=
  { r.1 with
    points := match r.2 with
      | some p => r.1.points.set k p
      | none => r.1.points.eraseIdx k }

/-- One step. -/
def step (s : State N E) : Label E → Option (State N E)
  | .group k =>
    (s.group[k]?).map fun t => { s with group := s.group.eraseIdx k }.execute t
  | .advance k => (s.points[k]?).bind fun p => (p.step s).map (State.goto k)
  | .returns k =>
    match s.points[k]? with
    | some (.running t) => some (State.goto k (s, some (.release t)))
    | _ => none
  | .throws k e =>
    match s.points[k]? with
    | some (.running t) => some (State.goto k (s, some (.caught t e)))
    | _ => none
  | .copy t =>
    if s.held t = 0 then none
    else some ((s.increment t).give t)
  | .report t e => if s.held t = 0 then none else some (s.report t e)
  | .letGo t =>
    if s.held t = 0 then none
    else some { s.decrement t with held := Function.update s.held t (s.held t - 1) }

end UnifyPrototype.ChainFirst
