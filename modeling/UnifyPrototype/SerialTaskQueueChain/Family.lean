import UnifyPrototype.SerialTaskQueueChain.Model

/-!
# Several chains on the same queues

A call of `push` is on some chain, whose queues the functors of its action go through. Which queues
these are is a function of the call; with a constant function this is the program with one chain.
-/

namespace UnifyPrototype.SerialTaskQueueChain

open UnifyPrototype.Utils
open SerialTaskQueue (Point Thread)

variable {Q : Type}

/-- The queues of the chain that a functor belongs to, where `chainOf a` are those of the chain that
the call `a` of `push` is on. -/
def Closure.queues (chainOf : ℕ → List Q) : Closure → List Q
  | .ordinary => []
  | .passDownChain _ _ a | .actionToRun a => chainOf a

/-- The queues of the chain whose code a step runs, if it runs code of a chain. -/
def State.running (chainOf : ℕ → List Q) (s : State Q) : Label Q → List Q
  | .push _ _ => chainOf s.nextAction
  | .advance i =>
    match (s.base.threads[i]?).bind Thread.next? with
    | some (_, .loop _ t) => t.action.queues chainOf
    | _ => []
  | _ => []

variable [DecidableEq Q]

/-- One step of the program with several chains. -/
def stepThrough (chainOf : ℕ → List Q) (s : State Q) (a : Label Q) : Option (State Q) :=
  step (s.running chainOf a) s a

/-- The states that some interleaving reaches from empty chains. -/
abbrev ReachableThrough (chainOf : ℕ → List Q) (s : State Q) : Prop :=
  Reaches (stepThrough chainOf) {} s

variable {m_queues : List Q} {s : State Q}

omit [DecidableEq Q] in
/-- In a family of one chain a closure has the code of that chain. -/
lemma Closure.code_queues (m_queues : List Q) (c : Closure) :
    c.code (c.queues fun _ => m_queues) = c.code m_queues := by
  cases c <;> rfl

/-- With one chain, the steps are the same. -/
lemma stepThrough_const (m_queues : List Q) (s : State Q) (a : Label Q) :
    stepThrough (fun _ => m_queues) s a = step m_queues s a := by
  cases a with
  | advance i =>
    unfold stepThrough State.running
    cases hnext : (s.base.threads[i]?).bind Thread.next? with
    | none => simp only [step, hnext]
    | some c =>
      obtain ⟨q, pt⟩ := c
      cases pt with
      | loop g t => simp only [step, hnext, nextScript, Closure.code_queues]
      | _ => simp only [step, hnext, nextScript]
  | _ => rfl

/-- One chain is a family of chains. -/
theorem Reachable.through (h : Reachable m_queues s) : ReachableThrough (fun _ => m_queues) s := by
  refine h.simulate (f := id) fun s a s' _ hstep => ?_
  exact .tail .refl trivial ((stepThrough_const m_queues s a).trans hstep)

end UnifyPrototype.SerialTaskQueueChain
