import UnifyPrototype.Utils.Runs
import UnifyPrototype.Utils.Tally

/-!
# `ThreadSafeAddOnlyContainer`

A shallow embedding of `ThreadSafeAddOnlyContainer.h`: one container, any number of threads that call
`makeAndHold`, and the destructor once all of them have returned. Each operation on `front_` and on a
node is one step. An object is named by the address of the node that holds it.
-/

namespace UnifyPrototype.ThreadSafeAddOnlyContainer

open UnifyPrototype.Utils

variable {T Args : Type}

structure Node (T : Type) where
  next : Option ℕ
  data : T
deriving DecidableEq, Repr

def Node.setNext (node : Node T) (v : Option ℕ) : Node T :=
  { node with next := v }

/-- The next operation of a thread in `makeAndHold`. -/
inductive Point (Args : Type)
  | load (args : Args)
  | new (expected : Option ℕ) (args : Args)
  | compareExchange (expected : Option ℕ) (newNode : ℕ)
  | setNext (expected : Option ℕ) (newNode : ℕ)
  | address (newNode : ℕ)
deriving DecidableEq, Repr

/-- Where the destructor is; `next node` reads `node->next()` if there is a node, `delete node nextNode`
deletes the node after that. -/
inductive Destructor
  | notCalled
  | load
  | next (node : Option ℕ)
  | delete (node : ℕ) (nextNode : Option ℕ)
  | returned
deriving DecidableEq, Repr

/-- The nodes on the heap, `front_`, the threads and the destructor. The last three record the nodes
whose compare-exchange has succeeded, the addresses that were returned, and the nodes that the
destructor has deleted. -/
structure State (T Args : Type) where
  heap : ℕ → Option (Node T) := fun _ => none
  front : Option ℕ := none
  threads : List (Option (Point Args)) := []
  destructor : Destructor := .notCalled
  published : List ℕ := []
  returned : List ℕ := []
  deleted : List ℕ := []

/-- One operation of `makeAndHold` other than `new`; `none` if it is on a node that does not
exist. -/
def Point.step (s : State T Args) : Point Args → Option (State T Args × Option (Point Args))
  | .load args => some (s, some (.new s.front args))
  | .new _ _ => none
  | .compareExchange expected newNode =>
    if s.front = expected then
      some ({ s with front := some newNode, published := s.published ++ [newNode] },
        some (.address newNode))
    else some (s, some (.setNext s.front newNode))
  | .setNext expected newNode =>
    (s.heap newNode).map fun node =>
      ({ s with heap := Function.update s.heap newNode (some (node.setNext expected)) },
        some (.compareExchange expected newNode))
  | .address newNode =>
    (s.heap newNode).map fun _ => ({ s with returned := s.returned ++ [newNode] }, none)

/-- One operation of the destructor; `none` also if it is on a node that does not exist. -/
def Destructor.step (s : State T Args) : Destructor → Option (State T Args × Destructor)
  | .notCalled => none
  | .load => some (s, .next s.front)
  | .next none => some (s, .returned)
  | .next (some node) => (s.heap node).map fun n => (s, .delete node n.next)
  | .delete node nextNode =>
    (s.heap node).map fun _ =>
      ({ s with heap := Function.update s.heap node none, deleted := s.deleted ++ [node] },
        .next nextNode)
  | .returned => none

/-- The moves: a thread appears, thread `i` calls `makeAndHold`, thread `i` makes its next operation,
its `new` gets the free address `a`, its `new` throws, the destructor is called, the destructor makes
its next operation. -/
inductive Label (Args : Type)
  | fork
  | makeAndHold (i : ℕ) (args : Args)
  | advance (i : ℕ)
  | new (i a : ℕ)
  | throw (i : ℕ)
  | destroy
  | advanceDestructor
deriving DecidableEq, Repr

/-- No call of `makeAndHold` is in progress. -/
def State.Idle (s : State T Args) : Prop :=
  ∀ p ∈ s.threads, p = none

instance (s : State T Args) : Decidable s.Idle :=
  inferInstanceAs (Decidable (∀ p ∈ s.threads, p = none))

/-- One step, where `construct` is the constructor of `T`. The destructor is called when all calls of
`makeAndHold` have returned, and none is made after it. -/
def step (construct : Args → T) (s : State T Args) : Label Args → Option (State T Args)
  | .fork => some { s with threads := s.threads ++ [none] }
  | .makeAndHold i args =>
    match s.destructor, s.threads[i]? with
    | .notCalled, some none => some { s with threads := s.threads.set i (some (.load args)) }
    | _, _ => none
  | .advance i =>
    match s.threads[i]? with
    | some (some p) =>
      (p.step s).map fun (s', next) => { s' with threads := s.threads.set i next }
    | _ => none
  | .new i a =>
    match s.threads[i]?, s.heap a with
    | some (some (.new expected args)), none =>
      some { s with
        heap := Function.update s.heap a (some ⟨expected, construct args⟩)
        threads := s.threads.set i (some (.compareExchange expected a)) }
    | _, _ => none
  | .throw i =>
    match s.threads[i]? with
    | some (some (.new _ _)) => some { s with threads := s.threads.set i none }
    | _ => none
  | .destroy =>
    if s.destructor = .notCalled ∧ s.Idle then some { s with destructor := .load } else none
  | .advanceDestructor =>
    (s.destructor.step s).map fun (s', next) => { s' with destructor := next }

/-- The states that some interleaving reaches from a new container. -/
abbrev Reachable (construct : Args → T) (s : State T Args) : Prop :=
  Reaches (step construct) {} s

end UnifyPrototype.ThreadSafeAddOnlyContainer
