import UnifyPrototype.SerialTaskQueue.Pause

/-!
# `SerialTaskQueueChain`: the code of a chain on top of its queues

A shallow embedding of `Concurrency/SerialTaskQueueChain.h`. The functors that a chain pushes are
data (`Closure`); what is left to do of a functor, or of a call of `push`, is the list of the
operations still to come (`script`). Every operation that concerns a queue is a call of a member
function of that queue, whose atomic steps are those of `SerialTaskQueue`.
-/

namespace UnifyPrototype.SerialTaskQueueChain

open UnifyPrototype.Utils
open SerialTaskQueue (QueuedTask Queue Point Thread)

/-! ## The functors and their code -/

/-- The functor of a queued task: an ordinary one, or one of the two lambdas of the chain. `a` tells
which call of `push` handed the action to the chain, `g` is its `iGroup`. -/
inductive Closure
  | ordinary
  | passDownChain (iQueueIndex g a : ℕ)
  | actionToRun (a : ℕ)
deriving DecidableEq, Repr

/-- The operations that the code of a chain is made of. `iAction` is the user's functor; a `resume`
and the decrement of `m_outstandingTasks` come from the sentry of the action `a`. -/
inductive Op (Q : Type)
  | increment
  | push (q : Q) (g : ℕ) (c : Closure)
  | pause (q : Q)
  | iAction
  | resume (a : ℕ) (q : Q)
  | decrement (a : ℕ)
deriving DecidableEq, Repr

variable {Q : Type}

/-- `SerialTaskQueueChain::push`. An empty chain stops at the assertion. -/
def push (m_queues : List Q) (g a : ℕ) : List (Op Q) :=
  .increment :: match m_queues with
    | [] => []
    | [q] => [.push q g (.actionToRun a)]
    | q :: _ :: _ => [.push q g (.passDownChain 1 g a)]

/-- `SerialTaskQueueChain::passDownChain`. -/
def passDownChain (m_queues : List Q) (iQueueIndex g a : ℕ) : List (Op Q) :=
  match m_queues[iQueueIndex - 1]?, m_queues[iQueueIndex]? with
  | some q, some q' =>
    if iQueueIndex + 1 = m_queues.length then [.pause q, .push q' g (.actionToRun a)]
    else [.pause q, .push q' g (.passDownChain (iQueueIndex + 1) g a)]
  | _, _ => []

/-- `sentryAction`: resumes all queues but the last, from the back. -/
def sentryAction (m_queues : List Q) (a : ℕ) : List (Op Q) :=
  (m_queues.reverse.drop 1).map (.resume a) ++ [.decrement a]

/-- `SerialTaskQueueChain::actionToRun`. -/
def actionToRun (m_queues : List Q) (a : ℕ) : List (Op Q) :=
  .iAction :: sentryAction m_queues a

/-- The code of a functor. -/
def Closure.code (m_queues : List Q) : Closure → List (Op Q)
  | .ordinary => [.iAction]
  | .passDownChain k g a => SerialTaskQueueChain.passDownChain m_queues k g a
  | .actionToRun a => SerialTaskQueueChain.actionToRun m_queues a

/-- The member function of a queue that an operation calls. -/
def Op.call? : Op Q → Option (Q × SerialTaskQueue.Op Closure)
  | .push q g c => some (q, .push g c)
  | .pause q => some (q, .pause)
  | .resume _ q => some (q, .resume)
  | .increment | .iAction | .decrement _ => none

/-! ## The program -/

/-- The state of the program: the queues and the threads, what is left of the chain's code in each
thread, `m_outstandingTasks`, and how many calls of `push` there have been. -/
structure State (Q : Type) where
  base : SerialTaskQueue.State Q Closure := {}
  script : ℕ → List (Op Q) := fun _ => []
  outstandingTasks : ℕ := 0
  nextAction : ℕ := 0

/-- The moves of the program. User code calls `push` of the chain, or pushes an ordinary task onto
some queue; the chain's code goes on to its next operation; the user's functor returns or throws;
a thread makes an atomic operation inside a queue; a task's functor is over. -/
inductive Label (Q : Type)
  | fork
  | push (i g : ℕ)
  | pushOrdinary (i : ℕ) (q : Q) (g : ℕ)
  | proceed (i : ℕ)
  | actionEnds (i : ℕ) (threw : Bool)
  | advance (i : ℕ)
  | finish (i : ℕ) (threw : Bool)
deriving DecidableEq, Repr

/-- The thread runs user code: it runs no task and no code of the chain, or the user's functor. -/
def inUserCode (th : Thread Q Closure) (script : List (Op Q)) : Bool :=
  th.call.isNone && match script with
    | [] => th.job.isNone
    | .iAction :: _ => th.inUserCode
    | _ :: _ => false

/-- What the exception of a user's functor changes: nothing. The sentry runs either way, and
`QueuedTask::execute` swallows the exception. -/
def afterAction (script : List (Op Q)) : Bool → List (Op Q)
  | false => script
  | true => script

/-- The code that is left after a thread has made the operation `pt`: a functor that begins to
execute has all its code before it. -/
def nextScript (m_queues : List Q) (script : List (Op Q)) : Point Closure → List (Op Q)
  | .loop _ t => t.action.code m_queues
  | _ => script

variable [DecidableEq Q]

/-- The user code of thread `i` may go on. -/
def State.userCode (s : State Q) (i : ℕ) : Bool :=
  match s.base.threads[i]? with
  | some th => inUserCode th (s.script i)
  | none => false

/-- Thread `i` is not inside a member function of a queue. -/
def State.outsideQueues (s : State Q) (i : ℕ) : Bool :=
  match s.base.threads[i]? with
  | some th => th.call.isNone && th.inUserCode
  | none => false

/-- The counter `m_outstandingTasks` after an operation of the chain. -/
def Op.count (n : ℕ) : Op Q → ℕ
  | .increment => n + 1
  | .decrement _ => n - 1
  | _ => n

/-- One step of the program with the chain `m_queues`. -/
def step (m_queues : List Q) (s : State Q) : Label Q → Option (State Q)
  | .fork => (SerialTaskQueue.step s.base .fork).map fun b => { s with base := b }
  | .push i g =>
    if s.userCode i then
      some { s with
        script := Function.update s.script i (push m_queues g s.nextAction ++ s.script i)
        nextAction := s.nextAction + 1 }
    else none
  | .pushOrdinary i q g =>
    if s.userCode i then
      (SerialTaskQueue.step s.base (.call i q (.push g .ordinary))).map fun b => { s with base := b }
    else none
  | .proceed i =>
    match s.outsideQueues i, s.script i with
    | true, op :: rest =>
      if op = .iAction then none
      else
        let s' := { s with
          script := Function.update s.script i rest
          outstandingTasks := op.count s.outstandingTasks }
        match op.call? with
        | none => some s'
        | some (q, f) =>
          (SerialTaskQueue.step s.base (.call i q f)).map fun b => { s' with base := b }
    | _, _ => none
  | .actionEnds i threw =>
    match s.outsideQueues i, s.script i with
    | true, .iAction :: rest =>
      some { s with script := Function.update s.script i (afterAction rest threw) }
    | _, _ => none
  | .advance i =>
    match (s.base.threads[i]?).bind Thread.next? with
    | some (_, pt) =>
      (SerialTaskQueue.step s.base (.advance i)).map fun b =>
        { s with
          base := b
          script := Function.update s.script i (nextScript m_queues (s.script i) pt) }
    | none => none
  | .finish i threw =>
    if s.script i = [] then
      (SerialTaskQueue.step s.base (.finish i threw)).map fun b => { s with base := b }
    else none

/-- The states that some interleaving reaches from an empty chain. -/
abbrev Reachable (m_queues : List Q) (s : State Q) : Prop :=
  Reaches (step m_queues) {} s

/-- The step does not act on an out-of-date read of some queue's `m_pauseCount`. -/
def freshPick (s : State Q) : Label Q → Bool
  | .advance i => SerialTaskQueue.freshPick s.base (.advance i)
  | _ => true

/-- Every pick of the run is a fresh one. -/
abbrev Fresh (s : State Q) (a : Label Q) : Prop :=
  freshPick s a = true

end UnifyPrototype.SerialTaskQueueChain
