import UnifyPrototype.Utils.Counters
import UnifyPrototype.Utils.Runs
import UnifyPrototype.Utils.Tally
import UnifyPrototype.Utils.Threads

/-!
# `WaitingTask` and its holders

A shallow embedding of `TaskBase.h`, `WaitingTask.h`, `WaitingTaskHolder.h` and
`WaitingTaskWithArenaHolder.cc`: one task, any number of holders of both classes, and any number of
threads that use them. Each atomic operation on the task is one step of one thread. A holder is a
plain object, so while an operation writes it no other thread uses it; any number of threads may
read it. The reference count is a natural number here; the `unsigned int` of the code shows it while
fewer than `2 ^ 32` references are out (`refCount_shows`).
-/

namespace UnifyPrototype.WaitingTask

open UnifyPrototype.Utils

/-! ## The task -/

/-- `WaitingTask::State`. -/
inductive PtrState
  | unset
  | setting
  | set
deriving DecidableEq, Repr

/-- The data members of a `WaitingTask`; `E` is what a non-null `std::exception_ptr` points to. -/
structure Task (E : Type) where
  refCount : ℕ := 0
  ptr : Option E := none
  ptrSet : PtrState := .unset
deriving DecidableEq, Repr

variable {E : Type}

/-- `increment_ref_count`. -/
def Task.incrementRefCount (m : Task E) : Task E :=
  { m with refCount := m.refCount + 1 }

/-- `decrement_ref_count`, with what it returns. -/
def Task.decrementRefCount (m : Task E) : Task E × ℕ :=
  ({ m with refCount := m.refCount - 1 }, m.refCount - 1)

/-- `++m_refCount` of the `unsigned int`. -/
lemma Task.incrementRefCount_shows {m : Task E} {c : BitVec 32} (hc : Shows c m.refCount)
    (hfew : m.refCount + 1 < 2 ^ 32) : Shows (c + 1#32) m.incrementRefCount.refCount :=
  hc.increment hfew

/-- `--m_refCount` of the `unsigned int`, and the comparison of what it returns with zero. -/
lemma Task.decrementRefCount_shows {m : Task E} {c : BitVec 32} (hc : Shows c m.refCount)
    (hpos : 0 < m.refCount) :
    Shows (c - 1#32) m.decrementRefCount.1.refCount ∧
      (0#32 = c - 1#32 ↔ 0 = m.decrementRefCount.2) :=
  ⟨hc.decrement hpos, hc.decrement_eq_zero_iff hpos⟩

/-- `exceptionPtr`. -/
def Task.exceptionPtr (m : Task E) : Option E :=
  if m.ptrSet = .set then m.ptr else none

/-- `uncheckedExceptionPtr`. -/
def Task.uncheckedExceptionPtr (m : Task E) : Option E :=
  m.ptr

/-! ## Holders -/

/-- The two classes of holders. -/
inductive HolderClass
  | taskHolder
  | arenaHolder
deriving DecidableEq, Repr

/-- A `WaitingTaskHolder` or a `WaitingTaskWithArenaHolder`, and whether its `m_task` is set. -/
structure Holder where
  cls : HolderClass
  hasTask : Bool
deriving DecidableEq, Repr

/-- The member function that calls `dependentTaskFailed`. -/
inductive Reporter
  | presetTaskAsFailed
  | doneWaiting
deriving DecidableEq, Repr

/-- The next atomic operation of a thread inside a member function of a holder: the three of
`dependentTaskFailed`, the decrement of `doneWaiting` and the hand-over after it, and the decrement
of `makeWaitingTaskHolderAndRelease`, which has made the new holder already. -/
inductive Point (E : Type)
  | exchange (h : ℕ) (e : E) (c : Reporter)
  | setPtr (h : ℕ) (e : E) (c : Reporter)
  | setState (h : ℕ) (c : Reporter)
  | decrement (cls : HolderClass)
  | handOver (cls : HolderClass)
  | release (h : ℕ)
deriving DecidableEq, Repr

/-- The holder that the thread is using. -/
def Point.holder : Point E → Option ℕ
  | .exchange h _ _ | .setPtr h _ _ | .setState h _ | .release h => some h
  | .decrement _ | .handOver _ => none

/-- Whether it is going to write it. -/
def Point.writes : Point E → Bool
  | .exchange _ _ c | .setPtr _ _ c | .setState _ c => c = .doneWaiting
  | .release _ => true
  | .decrement _ | .handOver _ => false

/-! ## The state -/

/-- The task, the holders (`none` when destroyed), and where each thread is. `wrapped` says that
the first holder was made. `enqueued` are the functors that wait in an arena to hand the task to its
group, `run` are those that wait in the group to execute it, `executed` are the arguments that
`FunctorWaitingTask::execute` gave to its functor. The last two record what was reported, and the
exception of the thread that won the exchange; no step reads them. -/
structure State (E : Type) where
  task : Task E := {}
  holders : List (Option Holder) := []
  threads : List (Option (Point E)) := []
  wrapped : Bool := false
  enqueued : ℕ := 0
  run : ℕ := 0
  executed : List (Option E) := []
  reported : List E := []
  winner : Option E := none
deriving DecidableEq, Repr

/-- The holder `h`, if no thread writes it. -/
def State.reading (s : State E) (h : ℕ) : Option Holder :=
  if s.threads.any fun p => p.any fun pt => pt.holder = some h && pt.writes then none
  else s.holders[h]?.join

/-- The holder `h`, if no thread uses it. -/
def State.writing (s : State E) (h : ℕ) : Option Holder :=
  if s.threads.any fun p => p.any fun pt => pt.holder = some h then none
  else s.holders[h]?.join

/-- A new holder. -/
def State.addHolder (s : State E) (cls : HolderClass) (hasTask : Bool) : State E :=
  { s with holders := s.holders ++ [some ⟨cls, hasTask⟩] }

/-- Holder `h` is now this one. -/
def State.setHolder (s : State E) (h : ℕ) (cls : HolderClass) (hasTask : Bool) : State E :=
  { s with holders := s.holders.set h (some ⟨cls, hasTask⟩) }

def State.incrementRefCount (s : State E) : State E :=
  { s with task := s.task.incrementRefCount }

/-! ## Member functions -/

/-- The member functions of the holders. `wrap` constructs the first holder from the new task,
`wrapAgain` another one from the task of holder `h`, `toArena` calls the conversion constructor
with a copy of `h` or with `std::move(h)`. -/
inductive Op (E : Type)
  | wrap (cls : HolderClass)
  | wrapAgain (cls : HolderClass) (h : ℕ)
  | default (cls : HolderClass)
  | copy (h : ℕ)
  | move (h : ℕ)
  | copyAssign (l r : ℕ)
  | moveAssign (l r : ℕ)
  | presetTaskAsFailed (h : ℕ) (e : Option E)
  | doneWaiting (h : ℕ) (e : Option E)
  | toArena (h : ℕ) (byMove : Bool)
  | makeWaitingTaskHolderAndRelease (h : ℕ)
  | destroy (h : ℕ)
deriving DecidableEq, Repr

/-- The end of `dependentTaskFailed`: `presetTaskAsFailed` returns, `doneWaiting` takes the task
out of the holder. -/
def Reporter.goOn (s : State E) (h : ℕ) : Reporter → State E × Option (Point E)
  | .presetTaskAsFailed => (s, none)
  | .doneWaiting =>
    match s.holders[h]?.join with
    | some ⟨cls, _⟩ => (s.setHolder h cls false, some (.decrement cls))
    | none => (s, none)

/-- `dependentTaskFailed`, up to its exchange. -/
def report (s : State E) (h : ℕ) (c : Reporter) : Option E → State E × Option (Point E)
  | some e => ({ s with reported := s.reported ++ [e] }, some (.exchange h e c))
  | none => c.goOn s h

/-- A member function up to its first atomic operation that is not an increment. Assignments
construct the temporary, swap with it and destroy it. Copies, conversions, `presetTaskAsFailed` and
`doneWaiting` are for holders that hold the task. -/
def Op.start (s : State E) : Op E → Option (State E × Option (Point E))
  | .wrap cls =>
    if s.wrapped then none
    else some ({ s.incrementRefCount.addHolder cls true with wrapped := true }, none)
  | .wrapAgain cls h =>
    match s.reading h with
    | some ⟨_, true⟩ => some (s.incrementRefCount.addHolder cls true, none)
    | _ => none
  | .default cls => some (s.addHolder cls false, none)
  | .copy h =>
    match s.reading h with
    | some ⟨cls, true⟩ => some (s.incrementRefCount.addHolder cls true, none)
    | _ => none
  | .move h =>
    match s.writing h with
    | some ⟨cls, hasTask⟩ => some ((s.setHolder h cls false).addHolder cls hasTask, none)
    | none => none
  | .copyAssign l r =>
    match s.writing l, s.reading r with
    | some ⟨cls, hasTask⟩, some ⟨cls', true⟩ =>
      if cls = cls' then
        some (s.incrementRefCount.setHolder l cls true,
          if hasTask then some (.decrement cls) else none)
      else none
    | _, _ => none
  | .moveAssign l r =>
    match s.writing l, s.writing r with
    | some ⟨cls, hasTask⟩, some ⟨cls', hasTask'⟩ =>
      if cls = cls' then
        some ((s.setHolder r cls false).setHolder l cls hasTask',
          if hasTask && l ≠ r then some (.decrement cls) else none)
      else none
    | _, _ => none
  | .presetTaskAsFailed h e =>
    match s.reading h with
    | some ⟨_, true⟩ => some (report s h .presetTaskAsFailed e)
    | _ => none
  | .doneWaiting h e =>
    match s.writing h with
    | some ⟨_, true⟩ => some (report s h .doneWaiting e)
    | _ => none
  | .toArena h false =>
    match s.reading h with
    | some ⟨.taskHolder, true⟩ => some (s.incrementRefCount.addHolder .arenaHolder true, none)
    | _ => none
  | .toArena h true =>
    match s.writing h with
    | some ⟨.taskHolder, true⟩ =>
      some ((s.setHolder h .taskHolder false).addHolder .arenaHolder true, none)
    | _ => none
  | .makeWaitingTaskHolderAndRelease h =>
    match s.writing h with
    | some ⟨.arenaHolder, true⟩ => some (s.incrementRefCount, some (.release h))
    | _ => none
  | .destroy h =>
    match s.writing h with
    | some ⟨cls, hasTask⟩ =>
      some ({ s with holders := s.holders.set h none },
        if hasTask then some (.decrement cls) else none)
    | none => none

/-- One atomic operation inside a member function. -/
def Point.step (s : State E) : Point E → State E × Option (Point E)
  | .exchange h e c =>
    if s.task.ptrSet = .unset then
      ({ s with task := { s.task with ptrSet := .setting }, winner := some e },
        some (.setPtr h e c))
    else c.goOn s h
  | .setPtr h e c => ({ s with task := { s.task with ptr := some e } }, some (.setState h c))
  | .setState h c => c.goOn { s with task := { s.task with ptrSet := .set } } h
  | .decrement cls =>
    let (task, refCount) := s.task.decrementRefCount
    ({ s with task := task }, if 0 = refCount then some (.handOver cls) else none)
  | .handOver .taskHolder => ({ s with run := s.run + 1 }, none)
  | .handOver .arenaHolder => ({ s with enqueued := s.enqueued + 1 }, none)
  | .release h =>
    (({ s with task := s.task.decrementRefCount.1 }.setHolder h .arenaHolder false).addHolder
      .taskHolder true, none)

/-! ## Steps -/

/-- The moves: a thread appears, it calls a member function, it makes its next operation; an arena
hands the task to its group, and the group executes the task. -/
inductive Label (E : Type)
  | fork
  | call (i : ℕ) (op : Op E)
  | advance (i : ℕ)
  | arena
  | group
deriving DecidableEq, Repr

/-- Thread `i` is now at `p`. -/
def State.goto (i : ℕ) (r : State E × Option (Point E)) : State E :=
  { r.1 with threads := r.1.threads.set i r.2 }

/-- One step. -/
def step (s : State E) : Label E → Option (State E)
  | .fork => some { s with threads := s.threads ++ [none] }
  | .call i op =>
    match s.threads[i]? with
    | some none => (op.start s).map (State.goto i)
    | _ => none
  | .advance i =>
    match s.threads[i]? with
    | some (some pt) => some (State.goto i (pt.step s))
    | _ => none
  | .arena =>
    if s.enqueued = 0 then none
    else some { s with enqueued := s.enqueued - 1, run := s.run + 1 }
  | .group =>
    if s.run = 0 then none
    else some { s with
      run := s.run - 1, executed := s.executed ++ [s.task.uncheckedExceptionPtr] }

/-- The states that some interleaving reaches from a new task without holders. -/
abbrev Reachable (s : State E) : Prop :=
  Reaches step {} s

end UnifyPrototype.WaitingTask
