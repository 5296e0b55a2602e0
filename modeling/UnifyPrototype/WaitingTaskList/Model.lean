import UnifyPrototype.Utils.Runs
import UnifyPrototype.Utils.Tally
import UnifyPrototype.Utils.Threads
import Mathlib.Logic.Function.Basic

/-!
# `WaitingTaskList`

A shallow embedding of `WaitingTaskList.h` and `WaitingTaskList.cc`: one list, any number of tasks,
and any number of threads that call `add` and `doneWaiting`. Each atomic operation, and each call on
a task, is one step of one thread. `reset` is one step, since nothing else may run with it. Heap
addresses are used again after `delete`.
-/

namespace UnifyPrototype.WaitingTaskList

open UnifyPrototype.Utils

/-! ## Nodes -/

/-- A `WaitNode*`: into the cache or to the heap. -/
inductive NodeRef
  | cached (index : ℕ)
  | heap (address : ℕ)
deriving DecidableEq, Repr

/-- A call of `add`: its number in the epoch, and the task and the group that it was given. -/
structure Added where
  number : ℕ
  task : ℕ
  group : ℕ
deriving DecidableEq, Repr

/-- A `WaitNode`; `m_task` and `m_group` are those of the call that made it. -/
structure WaitNode where
  added : Added
  next : Option NodeRef
  fromCache : Bool
deriving DecidableEq, Repr

/-- A node of a new cache. -/
def newCached : WaitNode :=
  ⟨⟨0, 0, 0⟩, none, true⟩

/-- The two overloads of `add`: `add(WaitingTaskHolder)` and `add(task_group*, WaitingTask*)`. -/
inductive Overload
  | holder
  | task
deriving DecidableEq, Repr

/-- The next operation of a thread: those of `add` with `createNode`, of `doneWaiting`, and of
`announce`. -/
inductive Point (E : Type)
  | readWaiting (o : Overload) (t : Added)
  | late (t : Added)
  | lateRelease (t : Added)
  | createNode (o : Overload) (t : Added)
  | exchangeHead (o : Overload) (t : Added) (n : NodeRef)
  | setNext (o : Overload) (t : Added) (n : NodeRef) (old : Option NodeRef)
  | setNextAgain (t : Added) (n : NodeRef)
  | recheckWaiting
  | setException (p : Option E)
  | clearWaiting
  | exchangeNull
  | readNext (n : NodeRef)
  | fail (t : Added) (n : NodeRef) (next : Option NodeRef)
  | free (t : Added) (n : NodeRef) (next : Option NodeRef)
  | release (t : Added) (next : Option NodeRef)
deriving DecidableEq, Repr

/-! ## The state -/

/-- The data members of the list and the heap; the reference count of each task and how many of its
references are held outside; what the list has spawned; and where each thread is. The rest records
the epoch: the calls of `add`, the argument of `doneWaiting`, on which tasks `dependentTaskFailed` was
called, and which references were released. -/
structure State (E : Type) where
  head : Option NodeRef := none
  nodeCache : List WaitNode := []
  heap : ℕ → Option WaitNode := fun _ => none
  lastAssignedCacheIndex : ℕ := 0
  exceptionPtr : Option E := none
  waiting : Bool := true
  refCount : ℕ → ℕ := fun _ => 0
  outside : ℕ → ℕ := fun _ => 0
  spawned : List (ℕ × ℕ) := []
  threads : List (Option (Point E)) := []
  added : List Added := []
  done : Option (Option E) := none
  failed : List (Added × E) := []
  released : List Added := []

variable {E : Type}

/-- The constructor. -/
def init (iInitialSize : ℕ) : State E :=
  { nodeCache := List.replicate iInitialSize newCached }

/-- What a pointer points to. -/
def State.node (s : State E) : NodeRef → Option WaitNode
  | .cached i => s.nodeCache[i]?
  | .heap a => s.heap a

/-- `setNextNode`. -/
def State.setNextNode (s : State E) (next : Option NodeRef) : NodeRef → State E
  | .cached i => { s with nodeCache := s.nodeCache.modify i ({ · with next := next }) }
  | .heap a => { s with
      heap := Function.update s.heap a ((s.heap a).map ({ · with next := next })) }

/-- `delete`, which is for nodes of the heap. -/
def State.delete (s : State E) : NodeRef → State E
  | .cached _ => s
  | .heap a => { s with heap := Function.update s.heap a none }

/-- `createNode`. Its increment is atomic and nobody else uses the node. A new node gets any free
address `a`. -/
def State.createNode (s : State E) (t : Added) (a : ℕ) : Option (State E × NodeRef) :=
  let index := s.lastAssignedCacheIndex
  if index < s.nodeCache.length then
    some ({ s with
      lastAssignedCacheIndex := (index + 1) % 2 ^ 32
      nodeCache := s.nodeCache.modify index
        ({ · with added := t, next := some (.cached index) }) }, .cached index)
  else if s.heap a = none then
    some ({ s with
      lastAssignedCacheIndex := (index + 1) % 2 ^ 32
      heap := Function.update s.heap a (some ⟨t, some (.heap a), false⟩) }, .heap a)
  else none

/-- `dependentTaskFailed(m_exceptionPtr)`, if there is an exception. -/
def State.dependentTaskFailed (s : State E) (t : Added) : State E :=
  match s.exceptionPtr with
  | some p => { s with failed := s.failed ++ [(t, p)] }
  | none => s

/-- `decrement_ref_count`, and `run` if it returns zero. -/
def State.release (s : State E) (t : Added) : State E :=
  let refCount := s.refCount t.task - 1
  { s with
    refCount := Function.update s.refCount t.task refCount
    spawned := if 0 = refCount then s.spawned ++ [(t.task, t.group)] else s.spawned
    released := s.released ++ [t] }

/-- `reset`, and a new epoch. -/
def State.reset (s : State E) : State E :=
  let nSeenTasks := s.lastAssignedCacheIndex
  { s with
    exceptionPtr := none
    lastAssignedCacheIndex := 0
    nodeCache := if nSeenTasks > s.nodeCache.length then List.replicate nSeenTasks newCached
      else s.nodeCache
    waiting := true
    added := []
    done := none
    failed := []
    released := [] }

/-- No call is in progress. -/
def State.Idle (s : State E) : Prop :=
  ∀ p ∈ s.threads, p = none

instance (s : State E) : Decidable s.Idle :=
  inferInstanceAs (Decidable (∀ p ∈ s.threads, p = none))

/-! ## Steps -/

/-- One operation of a thread. Its first operation after a call of `add` is the test of `m_waiting`;
with it the call has its reference. -/
def Point.step (s : State E) (a : ℕ) : Point E → Option (State E × Option (Point E))
  | .readWaiting o t => some (s, some (if s.waiting then .createNode o t else .late t))
  | .late t => some (s.dependentTaskFailed t, some (.lateRelease t))
  | .lateRelease t => some (s.release t, none)
  | .createNode o t => (s.createNode t a).map fun (s, n) => (s, some (.exchangeHead o t n))
  | .exchangeHead o t n => some ({ s with head := some n }, some (.setNext o t n s.head))
  | .setNext o t n old =>
    some (s.setNextNode old n,
      if old = none then
        match o with
        | .holder => some (.setNextAgain t n)
        | .task => some .recheckWaiting
      else none)
  | .setNextAgain _ n => some (s.setNextNode none n, some .recheckWaiting)
  | .recheckWaiting => some (s, if s.waiting then none else some .exchangeNull)
  | .setException p => some ({ s with exceptionPtr := p }, some .clearWaiting)
  | .clearWaiting => some ({ s with waiting := false }, some .exchangeNull)
  | .exchangeNull => some ({ s with head := none }, s.head.map .readNext)
  | .readNext n => (s.node n).map fun node =>
      (s, some (if node.next = some n then .readNext n else .fail node.added n node.next))
  | .fail t n next => some (s.dependentTaskFailed t, some (.free t n next))
  | .free t n next => (s.node n).map fun node =>
      (if node.fromCache then s else s.delete n, some (.release t next))
  | .release t next => some (s.release t, next.map .readNext)

/-- The moves: a thread appears; a thread calls `add` or `doneWaiting`; the owner calls `reset`; a
reference to a task is taken or given up outside; thread `i` makes its next operation, with `a` for
the address of a new node. -/
inductive Label (E : Type)
  | fork
  | add (i : ℕ) (o : Overload) (task group : ℕ)
  | doneWaiting (i : ℕ) (p : Option E)
  | reset
  | retain (task : ℕ)
  | letGo (task : ℕ)
  | advance (i a : ℕ)
deriving DecidableEq, Repr

/-- Thread `i` is now at `p`. -/
def State.goto (i : ℕ) (r : State E × Option (Point E)) : State E :=
  { r.1 with threads := r.1.threads.set i r.2 }

/-- A call of `add` with its reference. -/
def State.add (s : State E) (t : Added) : State E :=
  { s with
    refCount := Function.update s.refCount t.task (s.refCount t.task + 1)
    added := s.added ++ [t] }

/-- One step. In an epoch there are fewer than `2 ^ 32` calls of `add` and one of `doneWaiting`, and
`reset` is called when all of them have returned. -/
def step (s : State E) : Label E → Option (State E)
  | .fork => some { s with threads := s.threads ++ [none] }
  | .add i o task group =>
    match s.threads[i]? with
    | some none =>
      if s.added.length + 1 < 2 ^ 32 then
        let t := ⟨s.added.length, task, group⟩
        some (State.goto i (s.add t, some (.readWaiting o t)))
      else none
    | _ => none
  | .doneWaiting i p =>
    match s.threads[i]? with
    | some none =>
      if s.done = none then
        some (State.goto i ({ s with done := some p }, some (.setException p)))
      else none
    | _ => none
  | .reset => if s.Idle ∧ s.done ≠ none then some s.reset else none
  | .retain task =>
    some { s with
      refCount := Function.update s.refCount task (s.refCount task + 1)
      outside := Function.update s.outside task (s.outside task + 1) }
  | .letGo task =>
    if s.outside task = 0 then none
    else some { s with
      refCount := Function.update s.refCount task (s.refCount task - 1)
      outside := Function.update s.outside task (s.outside task - 1) }
  | .advance i a =>
    match s.threads[i]? with
    | some (some pt) => (pt.step s a).map (State.goto i)
    | _ => none

end UnifyPrototype.WaitingTaskList
