import UnifyPrototype.WaitingTask.Model

/-!
# The two classes of holders, side by side

A shallow embedding of `WaitingTaskHolder.h` and `WaitingTaskWithArenaHolder.cc` for one thread: any
number of tasks, groups, arenas and holders of one of the two classes. Each member function is
translated for each of the classes; the sequences of calls are the same for both. A pointer to a task
is a place in the list of tasks, where a deleted task leaves `none`.
-/

namespace UnifyPrototype.Holders

variable {E : Type}

/-- Why a sequence of calls stops: a call that the sequence may not make, or a member function that is
called through a null pointer or through a pointer to a deleted object. -/
inductive Stop
  | excluded
  | badPointer
deriving DecidableEq, Repr

/-! ## Tasks, groups and arenas -/

/-- The tasks; what waits in an arena to run a task in a group, what waits in a group to execute a
task, and the tasks that were executed, with what their functors were given. -/
structure World (E : Type) where
  tasks : List (Option (WaitingTask.Task E)) := []
  enqueued : List (ℕ × Option ℕ × ℕ) := []
  run : List (ℕ × ℕ) := []
  executed : List (ℕ × Option E) := []
deriving DecidableEq, Repr

/-- `dependentTaskFailed`, when no other thread is in it. -/
def dependentTaskFailed (m : WaitingTask.Task E) (iPtr : E) : WaitingTask.Task E :=
  if m.ptrSet = .unset then { m with ptr := some iPtr, ptrSet := .set } else m

namespace World

/-- The task behind a pointer. -/
def task (w : World E) (p : Option ℕ) : Except Stop (ℕ × WaitingTask.Task E) :=
  match p with
  | none => .error .badPointer
  | some t =>
    match w.tasks[t]? with
    | some (some m) => .ok (t, m)
    | _ => .error .badPointer

/-- A member function that changes the task behind a pointer. -/
def modify (w : World E) (p : Option ℕ) (f : WaitingTask.Task E → WaitingTask.Task E) :
    Except Stop (World E) := do
  let (t, m) ← w.task p
  return { w with tasks := w.tasks.set t (some (f m)) }

/-- `m_task->increment_ref_count()`. -/
def incrementRefCount (w : World E) (p : Option ℕ) : Except Stop (World E) :=
  w.modify p WaitingTask.Task.incrementRefCount

/-- `task->decrement_ref_count()`, with what it returns. -/
def decrementRefCount (w : World E) (p : Option ℕ) : Except Stop (World E × ℕ) := do
  let (_, m) ← w.task p
  let w ← w.modify p fun m => m.decrementRefCount.1
  return (w, m.decrementRefCount.2)

/-- `if (iExcept) { m_task->dependentTaskFailed(iExcept); }`. -/
def reportFailure (w : World E) (p : Option ℕ) : Option E → Except Stop (World E)
  | some e => w.modify p (dependentTaskFailed · e)
  | none => .ok w

/-- `group->run` of the functor that executes the task. -/
def groupRun (w : World E) (group task : Option ℕ) : Except Stop (World E) :=
  match group, task with
  | some g, some t => .ok { w with run := w.run ++ [(g, t)] }
  | _, _ => .error .badPointer

/-- `m_arena->enqueue` of the functor that runs that one in the group. -/
def arenaEnqueue (w : World E) (arena group task : Option ℕ) : Except Stop (World E) :=
  match arena, task with
  | some a, some t => .ok { w with enqueued := w.enqueued ++ [(a, group, t)] }
  | _, _ => .error .badPointer

end World

/-- The object `h` of a list of objects, if it is alive. -/
def object {H : Type} (holders : List (Option H)) (h : ℕ) : Except Stop H :=
  match holders[h]? with
  | some (some holder) => .ok holder
  | _ => .error .excluded

/-! ## `WaitingTaskHolder` -/

/-- `m_task` and `m_group`. -/
structure WaitingTaskHolder where
  task : Option ℕ
  group : Option ℕ
deriving DecidableEq, Repr

namespace WaitingTaskHolder

def default : WaitingTaskHolder :=
  ⟨none, none⟩

def construct (w : World E) (iGroup iTask : ℕ) : Except Stop (World E × WaitingTaskHolder) := do
  let w ← w.incrementRefCount (some iTask)
  return (w, ⟨some iTask, some iGroup⟩)

def doneWaiting (w : World E) (h : WaitingTaskHolder) (iExcept : Option E) :
    Except Stop (World E × WaitingTaskHolder) := do
  let w ← w.reportFailure h.task iExcept
  let (w, refCount) ← w.decrementRefCount h.task
  let w ← if 0 = refCount then w.groupRun h.group h.task else pure w
  return (w, { h with task := none })

def destroy (w : World E) (h : WaitingTaskHolder) : Except Stop (World E) :=
  if h.task.isSome then do
    let (w, _) ← doneWaiting w h none
    return w
  else return w

/-- The copy constructor; it does not ask whether there is a task. -/
def copy (w : World E) (iHolder : WaitingTaskHolder) : Except Stop (World E × WaitingTaskHolder) := do
  let w ← w.incrementRefCount iHolder.task
  return (w, ⟨iHolder.task, iHolder.group⟩)

/-- The move constructor: the new holder, and what it leaves. -/
def move (iOther : WaitingTaskHolder) : WaitingTaskHolder × WaitingTaskHolder :=
  (⟨iOther.task, iOther.group⟩, { iOther with task := none })

/-- `std::swap` of the data members. -/
def swap (this tmp : WaitingTaskHolder) : WaitingTaskHolder × WaitingTaskHolder :=
  (⟨tmp.task, tmp.group⟩, ⟨this.task, this.group⟩)

def copyAssign (w : World E) (this iRHS : WaitingTaskHolder) :
    Except Stop (World E × WaitingTaskHolder) := do
  let (w, tmp) ← copy w iRHS
  let (this, tmp) := swap this tmp
  let w ← destroy w tmp
  return (w, this)

/-- Move assignment to the object `l` from the object `r`, which may be the same. -/
def moveAssign (w : World E) (holders : List (Option WaitingTaskHolder)) (l r : ℕ) :
    Except Stop (World E × List (Option WaitingTaskHolder)) := do
  let iRHS ← object holders r
  let (tmp, iRHS) := move iRHS
  let holders := holders.set r (some iRHS)
  let this ← object holders l
  let (this, tmp) := swap this tmp
  let w ← destroy w tmp
  return (w, holders.set l (some this))

def presetTaskAsFailed (w : World E) (h : WaitingTaskHolder) (iExcept : Option E) :
    Except Stop (World E) :=
  w.reportFailure h.task iExcept

def taskHasFailed (w : World E) (h : WaitingTaskHolder) : Except Stop Bool := do
  let (_, m) ← w.task h.task
  return m.exceptionPtr.isSome

def hasTask (h : WaitingTaskHolder) : Bool :=
  h.task.isSome

end WaitingTaskHolder

/-! ## `WaitingTaskWithArenaHolder` -/

/-- `m_task`, `m_group` and `m_arena`. -/
structure WaitingTaskWithArenaHolder where
  task : Option ℕ
  group : Option ℕ
  arena : Option ℕ
deriving DecidableEq, Repr

namespace WaitingTaskWithArenaHolder

def default : WaitingTaskWithArenaHolder :=
  ⟨none, none, none⟩

/-- `attached` is the arena of the thread. -/
def construct (w : World E) (attached iGroup iTask : ℕ) :
    Except Stop (World E × WaitingTaskWithArenaHolder) := do
  let w ← w.incrementRefCount (some iTask)
  return (w, ⟨some iTask, some iGroup, some attached⟩)

def doneWaiting (w : World E) (h : WaitingTaskWithArenaHolder) (iExcept : Option E) :
    Except Stop (World E × WaitingTaskWithArenaHolder) := do
  let w ← w.reportFailure h.task iExcept
  let (w, refCount) ← w.decrementRefCount h.task
  let w ← if 0 = refCount then w.arenaEnqueue h.arena h.group h.task else pure w
  return (w, { h with task := none })

def destroy (w : World E) (h : WaitingTaskWithArenaHolder) : Except Stop (World E) :=
  if h.task.isSome then do
    let (w, _) ← doneWaiting w h none
    return w
  else return w

/-- The copy constructor. -/
def copy (w : World E) (iHolder : WaitingTaskWithArenaHolder) :
    Except Stop (World E × WaitingTaskWithArenaHolder) := do
  let w ← if iHolder.task.isSome then w.incrementRefCount iHolder.task else pure w
  return (w, ⟨iHolder.task, iHolder.group, iHolder.arena⟩)

/-- The move constructor: the new holder, and what it leaves. -/
def move (iOther : WaitingTaskWithArenaHolder) :
    WaitingTaskWithArenaHolder × WaitingTaskWithArenaHolder :=
  (⟨iOther.task, iOther.group, iOther.arena⟩, { iOther with task := none, arena := none })

/-- `std::swap` of the data members. -/
def swap (this tmp : WaitingTaskWithArenaHolder) :
    WaitingTaskWithArenaHolder × WaitingTaskWithArenaHolder :=
  (⟨tmp.task, tmp.group, tmp.arena⟩, ⟨this.task, this.group, this.arena⟩)

def copyAssign (w : World E) (this iRHS : WaitingTaskWithArenaHolder) :
    Except Stop (World E × WaitingTaskWithArenaHolder) := do
  let (w, tmp) ← copy w iRHS
  let (this, tmp) := swap this tmp
  let w ← destroy w tmp
  return (w, this)

/-- Move assignment to the object `l` from the object `r`, which may be the same. -/
def moveAssign (w : World E) (holders : List (Option WaitingTaskWithArenaHolder)) (l r : ℕ) :
    Except Stop (World E × List (Option WaitingTaskWithArenaHolder)) := do
  let iRHS ← object holders r
  let (tmp, iRHS) := move iRHS
  let holders := holders.set r (some iRHS)
  let this ← object holders l
  let (this, tmp) := swap this tmp
  let w ← destroy w tmp
  return (w, holders.set l (some this))

def presetTaskAsFailed (w : World E) (h : WaitingTaskWithArenaHolder) (iExcept : Option E) :
    Except Stop (World E) :=
  w.reportFailure h.task iExcept

def taskHasFailed (w : World E) (h : WaitingTaskWithArenaHolder) : Except Stop Bool := do
  let (_, m) ← w.task h.task
  return m.exceptionPtr.isSome

def hasTask (h : WaitingTaskWithArenaHolder) : Bool :=
  h.task.isSome

end WaitingTaskWithArenaHolder

/-! ## Sequences of calls -/

/-- The member functions that both classes offer. -/
class HolderClass (H : Type) where
  default : H
  construct {E : Type} (w : World E) (attached iGroup iTask : ℕ) : Except Stop (World E × H)
  copy {E : Type} (w : World E) (iHolder : H) : Except Stop (World E × H)
  move (iOther : H) : H × H
  copyAssign {E : Type} (w : World E) (this iRHS : H) : Except Stop (World E × H)
  moveAssign {E : Type} (w : World E) (holders : List (Option H)) (l r : ℕ) :
    Except Stop (World E × List (Option H))
  presetTaskAsFailed {E : Type} (w : World E) (h : H) (iExcept : Option E) : Except Stop (World E)
  doneWaiting {E : Type} (w : World E) (h : H) (iExcept : Option E) : Except Stop (World E × H)
  taskHasFailed {E : Type} (w : World E) (h : H) : Except Stop Bool
  hasTask (h : H) : Bool
  destroy {E : Type} (w : World E) (h : H) : Except Stop (World E)

instance : HolderClass WaitingTaskHolder where
  default := WaitingTaskHolder.default
  construct w _ iGroup iTask := WaitingTaskHolder.construct w iGroup iTask
  copy := WaitingTaskHolder.copy
  move := WaitingTaskHolder.move
  copyAssign := WaitingTaskHolder.copyAssign
  moveAssign := WaitingTaskHolder.moveAssign
  presetTaskAsFailed := WaitingTaskHolder.presetTaskAsFailed
  doneWaiting := WaitingTaskHolder.doneWaiting
  taskHasFailed := WaitingTaskHolder.taskHasFailed
  hasTask := WaitingTaskHolder.hasTask
  destroy := WaitingTaskHolder.destroy

instance : HolderClass WaitingTaskWithArenaHolder where
  default := WaitingTaskWithArenaHolder.default
  construct := WaitingTaskWithArenaHolder.construct
  copy := WaitingTaskWithArenaHolder.copy
  move := WaitingTaskWithArenaHolder.move
  copyAssign := WaitingTaskWithArenaHolder.copyAssign
  moveAssign := WaitingTaskWithArenaHolder.moveAssign
  presetTaskAsFailed := WaitingTaskWithArenaHolder.presetTaskAsFailed
  doneWaiting := WaitingTaskWithArenaHolder.doneWaiting
  taskHasFailed := WaitingTaskWithArenaHolder.taskHasFailed
  hasTask := WaitingTaskWithArenaHolder.hasTask
  destroy := WaitingTaskWithArenaHolder.destroy

/-- The tasks, the holders (`none` when destroyed), and what the calls of `taskHasFailed` returned. -/
structure State (H E : Type) where
  world : World E := {}
  holders : List (Option H) := []
  answers : List Bool := []
deriving DecidableEq, Repr

/-- The calls. `newTask` makes a task without holders; `construct` is for a task that is alive and not
handed over for execution; the last three are for holders that have a task. -/
inductive Op (E : Type)
  | newTask
  | default
  | construct (attached iGroup iTask : ℕ)
  | copy (h : ℕ)
  | move (h : ℕ)
  | copyAssign (l r : ℕ)
  | moveAssign (l r : ℕ)
  | destroy (h : ℕ)
  | presetTaskAsFailed (h : ℕ) (e : Option E)
  | doneWaiting (h : ℕ) (e : Option E)
  | taskHasFailed (h : ℕ)
deriving DecidableEq, Repr

/-- The tasks that wait to be executed, with their groups. -/
def World.waiting (w : World E) : List (Option ℕ × ℕ) :=
  w.enqueued.map Prod.snd ++ w.run.map fun item => (some item.1, item.2)

variable {H : Type} [HolderClass H]

open HolderClass

/-- The holder `h`, which has a task. -/
def State.holding (s : State H E) (h : ℕ) : Except Stop H := do
  let holder ← object s.holders h
  if hasTask holder then return holder else throw .excluded

/-- The state after a call. -/
def Op.call (s : State H E) : Op E → Except Stop (State H E)
  | .newTask => return { s with world := { s.world with tasks := s.world.tasks ++ [some {}] } }
  | .default => return { s with holders := s.holders ++ [some HolderClass.default] }
  | .construct attached iGroup iTask =>
    if (s.world.tasks[iTask]?).join.isSome ∧ iTask ∉ s.world.waiting.map Prod.snd then do
      let (w, new) ← HolderClass.construct s.world attached iGroup iTask
      return { s with world := w, holders := s.holders ++ [some new] }
    else throw .excluded
  | .copy h => do
    let iHolder ← object s.holders h
    let (w, new) ← HolderClass.copy s.world iHolder
    return { s with world := w, holders := s.holders ++ [some new] }
  | .move h => do
    let iOther ← object s.holders h
    let (new, iOther) := HolderClass.move iOther
    return { s with holders := s.holders.set h (some iOther) ++ [some new] }
  | .copyAssign l r => do
    let this ← object s.holders l
    let iRHS ← object s.holders r
    let (w, this) ← HolderClass.copyAssign s.world this iRHS
    return { s with world := w, holders := s.holders.set l (some this) }
  | .moveAssign l r => do
    let (w, holders) ← HolderClass.moveAssign s.world s.holders l r
    return { s with world := w, holders := holders }
  | .destroy h => do
    let holder ← object s.holders h
    let w ← HolderClass.destroy s.world holder
    return { s with world := w, holders := s.holders.set h none }
  | .presetTaskAsFailed h e => do
    let holder ← s.holding h
    let w ← HolderClass.presetTaskAsFailed s.world holder e
    return { s with world := w }
  | .doneWaiting h e => do
    let holder ← s.holding h
    let (w, holder) ← HolderClass.doneWaiting s.world holder e
    return { s with world := w, holders := s.holders.set h (some holder) }
  | .taskHasFailed h => do
    let holder ← s.holding h
    let failed ← HolderClass.taskHasFailed s.world holder
    return { s with answers := s.answers ++ [failed] }

/-- What happens: a call; an arena runs a task in its group; a group executes a task and, as its
`TaskSentry` goes, deletes it. -/
inductive Event (E : Type)
  | call (op : Op E)
  | arena (item : ℕ × Option ℕ × ℕ)
  | group (item : ℕ × ℕ)
deriving DecidableEq, Repr

/-- The state after an event. -/
def step (s : State H E) : Event E → Except Stop (State H E)
  | .call op => op.call s
  | .arena item =>
    if item ∈ s.world.enqueued then do
      let w ← { s.world with enqueued := s.world.enqueued.erase item }.groupRun item.2.1 (some item.2.2)
      return { s with world := w }
    else throw .excluded
  | .group item =>
    if item ∈ s.world.run then do
      let (t, m) ← s.world.task (some item.2)
      return { s with world := { s.world with
        tasks := s.world.tasks.set t none
        run := s.world.run.erase item
        executed := s.world.executed ++ [(t, m.uncheckedExceptionPtr)] } }
    else throw .excluded

/-- The state after the events of a list, from no tasks and no holders. -/
def run (H : Type) [HolderClass H] (events : List (Event E)) : Except Stop (State H E) :=
  events.foldlM step {}

end UnifyPrototype.Holders
