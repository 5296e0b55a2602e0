import UnifyPrototype.SerialTaskQueueChain.Exclusive
import UnifyPrototype.SerialTaskQueueChain.Order

/-!
# Several chains over shared queues

The program of `SerialTaskQueueChain` with a family of chains. Every chain has its own
`m_outstandingTasks`, and a record tells which actions have run. The functors of an action are those
of the chain that its call of `push` was on.
-/

namespace UnifyPrototype.SerialTaskQueueChains

open UnifyPrototype.Utils
open SerialTaskQueue (Thread)
open SerialTaskQueueChain (Closure Op Label stepThrough actionsIn)

variable {C Q : Type}

/-- The queues of a chain. `push` asserts that there is one, and all chains list theirs in one
order. -/
structure Chain (Q : Type) [LinearOrder Q] where
  m_queues : List Q
  nonempty : m_queues ≠ []
  ordered : m_queues.Pairwise (· < ·)

/-- The state: the program, `m_outstandingTasks` of each chain, and the actions that have returned or
thrown, which no step reads. The counter of `program` adds up those of the chains. -/
structure State (C Q : Type) where
  program : SerialTaskQueueChain.State Q := {}
  outstandingTasks : C → ℕ := fun _ => 0
  ran : List ℕ := []

/-- The action whose chain counts the next operation. An increment is for the action that is pushed
next. -/
def counted? : List (Op Q) → Option ℕ
  | .increment :: .push _ _ c :: _ => c.action?
  | .decrement a :: _ => some a
  | _ => none

/-- The action that a functor executes. -/
def runs? : Closure → Option ℕ
  | .actionToRun a => some a
  | .ordinary | .passDownChain _ _ _ => none

/-- The action that a thread executes. -/
def running? (th : Thread Q Closure) : Option ℕ :=
  match th.job with
  | some (_, .execute _ t) => runs? t.action
  | _ => none

/-- The action that is over after a step. -/
def State.over? (s : State C Q) : Label Q → Option ℕ
  | .actionEnds i _ => (s.program.base.threads[i]?).bind running?
  | _ => none

section Steps

variable [DecidableEq C]

/-- The counters after a step. `through` tells which chain each call of `push` is on. -/
def State.counts (through : ℕ → C) (s : State C Q) : Label Q → C → ℕ
  | .proceed i =>
    match s.program.script i, counted? (s.program.script i) with
    | op :: _, some a =>
      Function.update s.outstandingTasks (through a) (op.count (s.outstandingTasks (through a)))
    | _, _ => s.outstandingTasks
  | _ => s.outstandingTasks

variable [LinearOrder Q]

/-- The queues of the chain that a call of `push` is on. -/
def chainOf (chains : C → Chain Q) (through : ℕ → C) (a : ℕ) : List Q :=
  (chains (through a)).m_queues

/-- One step of the program. User code chooses the chain of each call: what holds for every `through`
holds for all its choices. -/
def step (chains : C → Chain Q) (through : ℕ → C) (s : State C Q) (a : Label Q) :
    Option (State C Q) :=
  (stepThrough (chainOf chains through) s.program a).map fun program =>
    { program
      outstandingTasks := s.counts through a
      ran := s.ran ++ (s.over? a).toList }

/-- The states that some interleaving reaches. -/
abbrev Reachable (chains : C → Chain Q) (through : ℕ → C) (s : State C Q) : Prop :=
  Reaches (step chains through) {} s

/-! ## What is to be shown -/

/-- The moves by which a thread or a runner goes on. The other ones are new calls of user code. -/
def goesOn : Label Q → Bool
  | .proceed _ | .actionEnds _ _ | .advance _ | .finish _ _ => true
  | .fork | .push _ _ | .pushOrdinary _ _ _ => false

/-- No step of any thread or runner is possible. A failed attempt to take a spin lock leaves
everything as it is, and is none. -/
def State.Quiet (chains : C → Chain Q) (through : ℕ → C) (s : State C Q) : Prop :=
  ∀ a s', goesOn a = true → step chains through s a = some s' → s' = s

/-- All that was pushed has run, and nothing is left of it. -/
structure State.Drained (s : State C Q) : Prop where
  ran : ∀ a, s.ran.count a = if a < s.program.nextAction then 1 else 0
  outstandingTasks : ∀ c, s.outstandingTasks c = 0
  pauseCount : ∀ q, (s.program.base.queue q).pauseCount = 0
  tasks : ∀ q, (s.program.base.queue q).tasks = []

/-- At most one action of each chain is executing. -/
def State.OneAtATime (through : ℕ → C) (s : State C Q) : Prop :=
  ∀ i j a b, s.program.runsAction i a → s.program.runsAction j b → through a = through b →
    i = j ∧ a = b

/-- The actions that entered the first queue of the chain `c`, in this order. -/
def State.entered (chains : C → Chain Q) (through : ℕ → C) (s : State C Q) (c : C) : List ℕ :=
  actionsIn (fun a => through a = c)
    (s.program.base.queue ((chains c).m_queues.head (chains c).nonempty)).pushed

/-- The actions of the chain `c` that have started, in this order. -/
def State.started (chains : C → Chain Q) (through : ℕ → C) (s : State C Q) (c : C) : List ℕ :=
  ((s.program.base.queue ((chains c).m_queues.getLast (chains c).nonempty)).begun.filterMap
    fun t => runs? t.action).filter fun a => through a = c

end Steps

end UnifyPrototype.SerialTaskQueueChains
