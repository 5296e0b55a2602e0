import Mathlib.Logic.Function.Basic
import UnifyPrototype.Utils.Counters
import UnifyPrototype.Utils.Runs
import UnifyPrototype.Utils.Tally

/-!
# `SerialTaskQueue`: the queue and its threads

A shallow embedding of `Concurrency/src/SerialTaskQueue.cc`. Any number of queues live side by
side; any number of threads call `push`, `pause` and `resume` on them, from outside or from inside
a running task, next to the runner loops that `spawn` hands to a `task_group`. Each atomic
operation and each `concurrent_queue` operation is one step of one thread; what happens between
two of them is local to the thread and belongs to the step before it.
-/

namespace UnifyPrototype.SerialTaskQueue

open UnifyPrototype.Utils

/-! ## The objects -/

/-- `QueuedTask<T>`: the object made by `push`, its `m_group` and its `m_action`. The `id` is the
object's identity: every `new` gives another one. -/
structure QueuedTask (α : Type) where
  id : ℕ
  group : ℕ
  action : α
deriving DecidableEq, Repr

/-- The data members of a `SerialTaskQueue`. The last three record, and no step reads them, which
tasks were pushed onto `m_tasks`, popped from it and have begun to execute, in that order. -/
structure Queue (α : Type) where
  tasks : List (QueuedTask α) := []
  pauseCount : ℕ := 0
  taskChosen : Bool := false
  pickingNextTask : Bool := false
  pushed : List (QueuedTask α) := []
  popped : List (QueuedTask α) := []
  begun : List (QueuedTask α) := []
deriving DecidableEq, Repr

/-- `pause()`: `1 == ++m_pauseCount`. -/
def Queue.pause {α : Type} (m : Queue α) : Queue α × Bool :=
  ({ m with pauseCount := m.pauseCount + 1 }, 1 == m.pauseCount + 1)

/-- The decrement of `resume()`: `0 == --m_pauseCount`, which decides whether it goes on to
`pickNextTask`. `none` is the resume that no pause came before. -/
def Queue.resume {α : Type} (m : Queue α) : Option (Queue α × Bool) :=
  if m.pauseCount = 0 then none
  else some ({ m with pauseCount := m.pauseCount - 1 }, 0 == m.pauseCount - 1)

/-- **`m_pauseCount` does not wrap** while fewer than `2 ^ 64` pauses are in force: the `unsigned long`
goes up and down with the number, and the comparisons of `pause`, `resume` and `pickNextTask` are
those of the number. -/
theorem Queue.pauseCount_shows {α : Type} {m : Queue α} (hfew : m.pauseCount + 1 < 2 ^ 64)
    {c : BitVec 64} (hc : Shows c m.pauseCount) :
    (Shows (c + 1#64) m.pause.1.pauseCount ∧ (1#64 = c + 1#64 ↔ m.pause.2 = true)) ∧
      (∀ r, m.resume = some r →
        Shows (c - 1#64) r.1.pauseCount ∧ (0#64 = c - 1#64 ↔ r.2 = true)) ∧
      (c ≠ 0#64 ↔ m.pauseCount ≠ 0) := by
  have hup := hc.increment hfew
  refine ⟨⟨hup, ?_⟩, fun r hr => ?_, (hc.eq_ofNat_iff (by decide)).not⟩
  · rw [eq_comm, hup.eq_ofNat_iff (by decide)]
    simp [Queue.pause]
  · unfold Queue.resume at hr
    split at hr
    next => cases hr
    next hne =>
      obtain rfl := Option.some.inj hr
      have hpos := Nat.pos_of_ne_zero hne
      exact ⟨hc.decrement hpos, (hc.decrement_eq_zero_iff hpos).trans beq_iff_eq.symm⟩

/-! ## Program points -/

/-- The next operation of a thread inside `pickNextTask`. -/
inductive Pick (α : Type)
  | readPauseCount
  | lockPicking
  | chooseTask
  | tryPop
  | clearChosen
  | unlockPicking (t : Option (QueuedTask α))
deriving DecidableEq, Repr

/-- Who called `pickNextTask` and gets its result: `push` or `resume`, or `finishedTask` in the
functor that `spawn` gave to the group `g`. -/
inductive Caller
  | member
  | runner (g : ℕ)
deriving DecidableEq, Repr

/-- The next operation of a thread at a queue. The first three and `spawn .member` are inside the
member functions, the last four are in the functor that `spawn` runs. -/
inductive Point (α : Type)
  | push (t : QueuedTask α)
  | pause
  | resume
  | pick (c : Caller) (p : Pick α)
  | spawn (c : Caller) (t : QueuedTask α)
  | waiting (t : QueuedTask α)
  | loop (g : ℕ) (t : QueuedTask α)
  | execute (g : ℕ) (t : QueuedTask α)
  | finishedTask (g : ℕ)
deriving DecidableEq, Repr

variable {Q α : Type}

/-- What the caller does with the result of `pickNextTask`. `push` and `resume` spawn a task they
got. The runner loop goes on with a task of its own group, spawns one of another group, and ends
when there is none. -/
def Caller.receive (c : Caller) (r : Option (QueuedTask α)) : Option (Point α) :=
  match c, r with
  | _, none => none
  | .member, some t => some (.spawn .member t)
  | .runner g, some t => if t.group ≠ g then some (.spawn (.runner g) t) else some (.loop g t)

/-- One operation of `pickNextTask`. -/
def Pick.step (m : Queue α) (c : Caller) : Pick α → Queue α × Option (Point α)
  | .readPauseCount =>
    if m.pauseCount ≠ 0 then (m, c.receive none) else (m, some (.pick c .lockPicking))
  | .lockPicking =>
    if m.pickingNextTask then (m, some (.pick c .lockPicking))
    else ({ m with pickingNextTask := true }, some (.pick c .chooseTask))
  | .chooseTask =>
    if m.taskChosen then (m, some (.pick c (.unlockPicking none)))
    else ({ m with taskChosen := true }, some (.pick c .tryPop))
  | .tryPop =>
    match m.tasks with
    | t :: ts =>
      ({ m with tasks := ts, popped := m.popped ++ [t] }, some (.pick c (.unlockPicking (some t))))
    | [] => (m, some (.pick c .clearChosen))
  | .clearChosen => ({ m with taskChosen := false }, some (.pick c (.unlockPicking none)))
  | .unlockPicking r => ({ m with pickingNextTask := false }, c.receive r)

/-- What one operation at a queue leads to: the queue, where the thread is next (`none` when the
call returned or the functor ended), and a task whose functor was handed to its group. -/
structure Result (α : Type) where
  queue : Queue α
  next : Option (Point α)
  spawned : Option (QueuedTask α) := none

/-- One operation at a queue. A running action has no operation of its own here: it ends by
`Label.finish`. -/
def Point.step (m : Queue α) : Point α → Option (Result α)
  | .push t =>
    some ⟨{ m with tasks := m.tasks ++ [t], pushed := m.pushed ++ [t] },
      some (.pick .member .readPauseCount), none⟩
  | .pause => some ⟨m.pause.1, none, none⟩
  | .resume =>
    m.resume.map fun r => ⟨r.1, if r.2 then some (.pick .member .readPauseCount) else none, none⟩
  | .pick c p => some ⟨(p.step m c).1, (p.step m c).2, none⟩
  | .spawn _ t => some ⟨m, none, some t⟩
  | .waiting t => some ⟨m, some (.loop t.group t), none⟩
  | .loop g t => some ⟨{ m with begun := m.begun ++ [t] }, some (.execute g t), none⟩
  | .execute _ _ => none
  | .finishedTask g =>
    some ⟨{ m with taskChosen := false }, some (.pick (.runner g) .readPauseCount), none⟩

/-! ## Threads and labels -/

/-- A thread: the functor it runs for a queue, if it is one that `spawn` made, and the member
function it is inside of, on the same or on another queue. -/
structure Thread (Q α : Type) where
  job : Option (Q × Point α) := none
  call : Option (Q × Point α) := none
deriving DecidableEq, Repr

/-- The thread runs no functor, or its functor is inside the action of a task. -/
def Thread.inUserCode (th : Thread Q α) : Bool :=
  match th.job with
  | none => true
  | some (_, .execute _ _) => true
  | some _ => false

/-- The next operation of the thread: inside the member function it has called, else in the
functor it runs. -/
def Thread.next? (th : Thread Q α) : Option (Q × Point α) :=
  match th.call with
  | some c => some c
  | none => th.job

/-- The thread has made its next operation and goes on at `n`. -/
def Thread.goto (th : Thread Q α) (n : Option (Q × Point α)) : Thread Q α :=
  match th.call with
  | some _ => { th with call := n }
  | none => { th with job := n }

/-- The state of the program. -/
structure State (Q α : Type) where
  queue : Q → Queue α := fun _ => {}
  threads : List (Thread Q α) := []
  nextId : ℕ := 0

/-- The member functions that user code calls. -/
inductive Op (α : Type)
  | push (group : ℕ) (action : α)
  | pause
  | resume
deriving DecidableEq, Repr

/-- The entry point of a member function; `push` makes the task object before it calls
`pushTask`. -/
def Op.entry (id : ℕ) : Op α → Point α
  | .push g a => .push ⟨id, g, a⟩
  | .pause => .pause
  | .resume => .resume

/-- The moves of the program: a new thread appears, the user code of a thread calls a member
function, a thread makes its next operation, the action of a task returns or throws. -/
inductive Label (Q α : Type)
  | fork
  | call (i : ℕ) (q : Q) (op : Op α)
  | advance (i : ℕ)
  | finish (i : ℕ) (threw : Bool)
deriving DecidableEq, Repr

/-- `QueuedTask::execute` swallows what the action throws, so both ends of the action lead to
`finishedTask`. -/
def afterExecute (g : ℕ) : Bool → Point α
  | false => .finishedTask g
  | true => .finishedTask g

variable [DecidableEq Q]

/-- Thread `i` has become `th`, queue `q` has become `r.queue`, and the functor of a spawned task
waits in its group. -/
def State.put (s : State Q α) (i : ℕ) (th : Thread Q α) (q : Q) (r : Result α) : State Q α :=
  { s with
    queue := Function.update s.queue q r.queue
    threads := s.threads.set i th ++ r.spawned.toList.map fun t => ⟨some (q, .waiting t), none⟩ }

/-- One step of the program. -/
def step (s : State Q α) : Label Q α → Option (State Q α)
  | .fork => some { s with threads := s.threads ++ [{}] }
  | .call i q op =>
    match s.threads[i]? with
    | some th =>
      if th.call = none ∧ th.inUserCode = true then
        some { s with
          threads := s.threads.set i { th with call := some (q, op.entry s.nextId) }
          nextId := s.nextId + 1 }
      else none
    | none => none
  | .advance i =>
    match s.threads[i]? with
    | some th =>
      match th.next? with
      | some (q, pt) =>
        (pt.step (s.queue q)).map fun r => s.put i (th.goto (r.next.map (q, ·))) q r
      | none => none
    | none => none
  | .finish i threw =>
    match s.threads[i]? with
    | some ⟨some (q, .execute g _), none⟩ =>
      some { s with threads := s.threads.set i ⟨some (q, afterExecute g threw), none⟩ }
    | _ => none

/-- The states that some interleaving of the threads reaches from empty queues. -/
abbrev Reachable (s : State Q α) : Prop :=
  Reaches step {} s

end UnifyPrototype.SerialTaskQueue
