import UnifyPrototype.SerialTaskQueue.Progress

/-!
# `LimitedTaskQueue`: the code on top of its queues

A shallow embedding of `Concurrency/LimitedTaskQueue.h` for the limit `k`. `push` and `pushAndPause`
make one `set_to_run` and put a lambda that shares it into each of the `k` queues. What a thread has
still to do of a call of them, and of a lambda, is its frame. Every operation that concerns a queue is
a call of a member function of that queue, whose atomic steps are those of `SerialTaskQueue`.
-/

namespace UnifyPrototype.LimitedTaskQueue

open UnifyPrototype.Utils
open SerialTaskQueue (Point Thread)

/-! ## Calls and lambdas -/

/-- The lambda that `push` or `pushAndPause` puts into a queue. The number tells which `set_to_run` it
has captured; the lambda of `pushAndPause` has also captured the queue. -/
inductive Closure (k : ℕ)
  | push (setToRun : ℕ)
  | pushAndPause (q : Fin k) (setToRun : ℕ)
deriving DecidableEq, Repr

/-- A call of `push` or `pushAndPause` that has not returned, and the queues that its loop has still
to come to. -/
structure Call (k : ℕ) where
  setToRun : ℕ
  group : ℕ
  pauses : Bool
  queues : List (Fin k)
deriving DecidableEq, Repr

/-- What is left of a lambda: all of it, `q.pause()` and the action, or the end of the action. -/
inductive Body (k : ℕ)
  | exchange (c : Closure k)
  | pause (q : Fin k) (a : ℕ)
  | iAction (a : ℕ)
deriving DecidableEq, Repr

/-- What a thread has still to do: of the lambda that it executes, and of the call that it is in. -/
structure Frame (k : ℕ) where
  body : Option (Body k) := none
  call : Option (Call k) := none
deriving DecidableEq, Repr

variable {k : ℕ}

/-- `LimitedTaskQueue::push`: `for (auto& q : m_queues)`. -/
def push (k g setToRun : ℕ) : Call k :=
  ⟨setToRun, g, false, List.finRange k⟩

/-- `LimitedTaskQueue::pushAndPause`. -/
def pushAndPause (k g setToRun : ℕ) : Call k :=
  ⟨setToRun, g, true, List.finRange k⟩

/-- The lambda that the call pushes onto the queue `q`. -/
def Call.closure (c : Call k) (q : Fin k) : Closure k :=
  if c.pauses then .pushAndPause q c.setToRun else .push c.setToRun

def Closure.setToRun : Closure k → ℕ
  | .push a => a
  | .pushAndPause _ a => a

/-- What follows the exchange that succeeded. -/
def Closure.afterExchange : Closure k → Body k
  | .push a => .iAction a
  | .pushAndPause q a => .pause q a

/-! ## The program -/

/-- The state of the program: the queues and the threads, the frame of each thread, the values of the
`set_to_run`s, the `m_queue` of each `Resumer`, and how many calls there have been. The last three
record, and no step reads them, which calls have returned, which exchanges have succeeded and which
actions are over, in that order. -/
structure State (k : ℕ) where
  base : SerialTaskQueue.State (Fin k) (Closure k) := {}
  frame : ℕ → Frame k := fun _ => {}
  setToRun : ℕ → Bool := fun _ => false
  resumers : List (Option (Fin k)) := []
  nextAction : ℕ := 0
  returned : List ℕ := []
  claimed : List ℕ := []
  ran : List ℕ := []

/-- The moves of the program. User code calls `push` or `pushAndPause`; it copies, moves or releases a
`Resumer`; a call or a lambda goes on; an action returns or throws; a thread makes an atomic operation
inside a queue; a lambda is over. -/
inductive Label
  | fork
  | push (i g : ℕ)
  | pushAndPause (i g : ℕ)
  | copy (i r : ℕ)
  | move (i r : ℕ)
  | release (i r : ℕ)
  | proceed (i : ℕ)
  | actionEnds (i : ℕ)
  | advance (i : ℕ)
  | finish (i : ℕ) (threw : Bool)
deriving DecidableEq, Repr

/-- The thread runs user code: it runs no lambda, or it is inside the action; and it is in no call. -/
def inUserCode (th : Thread (Fin k) (Closure k)) (f : Frame k) : Bool :=
  th.call.isNone && match f with
    | ⟨none, none⟩ => th.job.isNone
    | ⟨some (.iAction _), none⟩ => true
    | _ => false

/-- The user code of thread `i` may go on. -/
def State.userCode (s : State k) (i : ℕ) : Bool :=
  match s.base.threads[i]? with
  | some th => inUserCode th (s.frame i)
  | none => false

/-- Thread `i` is not inside a member function of a queue. -/
def State.outsideQueues (s : State k) (i : ℕ) : Bool :=
  match s.base.threads[i]? with
  | some th => th.call.isNone
  | none => false

/-- Thread `i` enters `push` or `pushAndPause`, which make a `set_to_run`. -/
def State.enter (s : State k) (i : ℕ) (c : Call k) : State k :=
  { s with
    frame := Function.update s.frame i { s.frame i with call := some c }
    nextAction := s.nextAction + 1 }

/-- Thread `i` calls a member function of the queue `q`. -/
def State.callQueue (s : State k) (i : ℕ) (q : Fin k) (op : SerialTaskQueue.Op (Closure k)) :
    Option (State k) :=
  (SerialTaskQueue.step s.base (.call i q op)).map fun b => { s with base := b }

/-- The copy constructor of `Resumer`: it pauses the queue of the other one, if that has a queue. -/
def State.copy (s : State k) (i r : ℕ) : Option (State k) :=
  match s.resumers[r]? with
  | some (some q) => s.callQueue i q .pause
  | some none => some { s with resumers := s.resumers ++ [none] }
  | none => none

/-- The move constructor of `Resumer`. -/
def State.move (s : State k) (r : ℕ) : Option (State k) :=
  (s.resumers[r]?).map fun q =>
    { s with resumers := s.resumers.set r none ++ [q] }

/-- `Resumer::resume`, which is also the destructor. -/
def State.release (s : State k) (i r : ℕ) : Option (State k) :=
  match s.resumers[r]? with
  | some (some q) => State.callQueue { s with resumers := s.resumers.set r none } i q .resume
  | some none => some s
  | none => none

/-- The next operation of a call, else of a lambda, that is not inside a queue. -/
def State.proceed (s : State k) (i : ℕ) : Option (State k) :=
  match s.frame i with
  | ⟨body, some c⟩ =>
    match c.queues with
    | q :: queues =>
      State.callQueue
        { s with frame := Function.update s.frame i ⟨body, some { c with queues := queues }⟩ }
        i q (.push c.group (c.closure q))
    | [] =>
      some { s with
        frame := Function.update s.frame i ⟨body, none⟩
        returned := s.returned ++ [c.setToRun] }
  | ⟨some (.exchange c), none⟩ =>
    if s.setToRun c.setToRun then some { s with frame := Function.update s.frame i {} }
    else
      some { s with
        frame := Function.update s.frame i ⟨some c.afterExchange, none⟩
        setToRun := Function.update s.setToRun c.setToRun true
        claimed := s.claimed ++ [c.setToRun] }
  | ⟨some (.pause q a), none⟩ =>
    State.callQueue { s with frame := Function.update s.frame i ⟨some (.iAction a), none⟩ } i q .pause
  | ⟨some (.iAction _), none⟩ => none
  | ⟨none, none⟩ => none

/-- The frame after the thread has made the operation `pt`: a lambda that begins to execute is before
its exchange. -/
def Frame.after (f : Frame k) : Point (Closure k) → Frame k
  | .loop _ t => ⟨some (.exchange t.action), none⟩
  | _ => f

/-- Who has paused a queue makes a `Resumer` of it: the lambda of `pushAndPause` and the copy
constructor are the only ones to pause. -/
def constructed (q : Fin k) : Point (Closure k) → List (Option (Fin k))
  | .pause => [some q]
  | _ => []

/-- One step of the program. An action that ends by an exception ends the lambda, as it does when it
returns. -/
def step (s : State k) : Label → Option (State k)
  | .fork => (SerialTaskQueue.step s.base .fork).map fun b => { s with base := b }
  | .push i g =>
    if s.userCode i then some (s.enter i (LimitedTaskQueue.push k g s.nextAction)) else none
  | .pushAndPause i g =>
    if s.userCode i then some (s.enter i (LimitedTaskQueue.pushAndPause k g s.nextAction)) else none
  | .copy i r => if s.userCode i then s.copy i r else none
  | .move i r => if s.userCode i then s.move r else none
  | .release i r => if s.userCode i then s.release i r else none
  | .proceed i => if s.outsideQueues i then s.proceed i else none
  | .actionEnds i =>
    match s.outsideQueues i, s.frame i with
    | true, ⟨some (.iAction a), none⟩ =>
      some { s with frame := Function.update s.frame i {}, ran := s.ran ++ [a] }
    | _, _ => none
  | .advance i =>
    match (s.base.threads[i]?).bind Thread.next? with
    | some (q, pt) =>
      (SerialTaskQueue.step s.base (.advance i)).map fun b =>
        { s with
          base := b
          frame := Function.update s.frame i ((s.frame i).after pt)
          resumers := s.resumers ++ constructed q pt }
    | none => none
  | .finish i threw =>
    if s.frame i = {} then
      (SerialTaskQueue.step s.base (.finish i threw)).map fun b => { s with base := b }
    else none

/-- The states that some interleaving reaches from empty queues. -/
abbrev Reachable (s : State k) : Prop :=
  Reaches step {} s

/-! ## What is observed -/

/-- The action whose exchange has succeeded and that is not over, if the frame is in one. -/
def Frame.executing (f : Frame k) : List ℕ :=
  match f.body with
  | some (.pause _ a) | some (.iAction a) => [a]
  | some (.exchange _) | none => []

/-- The actions that are executing. -/
def State.executing (s : State k) : List ℕ :=
  (List.range s.base.threads.length).flatMap fun i => (s.frame i).executing

/-- A step of a runner or of a call that has begun, in contrast to a new call by user code. -/
def Label.continues : Label → Bool
  | .proceed _ | .actionEnds _ | .advance _ | .finish _ _ => true
  | _ => false

/-- Nobody goes on: the only steps left are failed attempts to take a spin lock. -/
def State.Stuck (s : State k) : Prop :=
  ∀ a s', a.continues = true → step s a = some s' → s' = s

end UnifyPrototype.LimitedTaskQueue
