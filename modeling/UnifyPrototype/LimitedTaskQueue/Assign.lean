import UnifyPrototype.LimitedTaskQueue.Limit

/-!
# `LimitedTaskQueue::Resumer`: assignments

A `Resumer` is a plain object, so while a thread assigns to it no other thread uses it; the queues are
used by any number of threads at a time. An assignment resumes the old queue before it takes the new
one, and copy assignment copies its right-hand side before that, which pauses the queue again. So one
assignment is up to four steps, with the steps of other threads between them. There may be any number
of `LimitedTaskQueue`s: `queues l` are the underlying queues of the number `l`.
-/

namespace UnifyPrototype.LimitedTaskQueue.Resumer

open UnifyPrototype.Utils
open SerialTaskQueue (Point Thread)

variable {k : ℕ}

/-- What thread `i` has still to do of an assignment to the `Resumer` number `l`: it is in the copy
constructor of `auto t = iOther`, before `*this = std::move(t)`, or in the `m_queue->resume()` of the
move assignment from the `Resumer` number `r`, whose old queue is `q`. -/
inductive Assignment (k : ℕ)
  | copying (i l : ℕ)
  | copied (i l t : ℕ)
  | moving (i l r : ℕ) (q : Fin k)
deriving DecidableEq, Repr

/-- The thread that assigns. -/
def Assignment.thread : Assignment k → ℕ
  | .copying i _ | .copied i _ _ | .moving i _ _ _ => i

/-- The `Resumer`s that it is going to write. -/
def Assignment.cells : Assignment k → List ℕ
  | .copying _ l => [l]
  | .copied _ l t => [l, t]
  | .moving _ l r _ => [l, r]

/-- The program, and the assignments that were begun, `none` when they have returned. -/
structure State (k : ℕ) where
  program : LimitedTaskQueue.State k := {}
  assignments : List (Option (Assignment k)) := []

/-- The moves: the program's own, but for the calls of `push` and `pushAndPause`, which are on one of
the `LimitedTaskQueue`s; user code assigns; an assignment goes on. -/
inductive Label
  | program (a : LimitedTaskQueue.Label)
  | push (i g l : ℕ)
  | pushAndPause (i g l : ℕ)
  | copyAssign (i l r : ℕ)
  | moveAssign (i l r : ℕ)
  | goOn (n : ℕ)
deriving DecidableEq, Repr

/-- Thread `i` is in no assignment. -/
def State.idle (s : State k) (i : ℕ) : Bool :=
  s.assignments.all fun p => p.all fun a => a.thread ≠ i

/-- No assignment is going to write the `Resumer` number `c`. -/
def State.free (s : State k) (c : ℕ) : Bool :=
  s.assignments.all fun p => p.all fun a => c ∉ a.cells

/-- The thread is in no assignment, and the `Resumer` is not in one. Inside an assignment a thread
only makes its operations at a queue, but for the copy constructor. -/
def State.permits (s : State k) : LimitedTaskQueue.Label → Bool
  | .fork => true
  | .push _ _ | .pushAndPause _ _ => false
  | .copy i r | .move i r | .release i r => s.idle i && s.free r
  | .proceed i | .actionEnds i | .finish i _ => s.idle i
  | .advance i => s.assignments.all fun p => p.all fun a =>
      match a with
      | .copying j _ => j ≠ i
      | _ => true

/-- `m_queue = iOther.m_queue; iOther.m_queue = nullptr;`. -/
def take (s : LimitedTaskQueue.State k) (l r : ℕ) : LimitedTaskQueue.State k :=
  { s with resumers := (s.resumers.set l (s.resumers[r]?).join).set r none }

/-- Move assignment, up to the return of `m_queue->resume()`. -/
def moveAssign (s : LimitedTaskQueue.State k) (i l r : ℕ) :
    Option (LimitedTaskQueue.State k × Option (Assignment k)) :=
  match s.resumers[l]? with
  | some (some q) => (s.callQueue i q .resume).map fun s' => (s', some (.moving i l r q))
  | some none => some (take s l r, none)
  | none => none

/-- Copy assignment, up to the pause of the copy constructor. A copy of an empty `Resumer` pauses
nothing. -/
def copyAssign (s : LimitedTaskQueue.State k) (i l r : ℕ) :
    Option (LimitedTaskQueue.State k × Option (Assignment k)) :=
  match s.resumers[r]? with
  | some (some q) => (s.callQueue i q .pause).map fun s' => (s', some (.copying i l))
  | some none =>
    some ({ s with resumers := s.resumers ++ [none] }, some (.copied i l s.resumers.length))
  | none => none

/-- What comes next in an assignment. The copy is the `Resumer` that the pause has made; when it is
destroyed it is empty. -/
def Assignment.step (s : LimitedTaskQueue.State k) :
    Assignment k → Option (LimitedTaskQueue.State k × Option (Assignment k))
  | .copying i l =>
    match (s.base.threads[i]?).bind Thread.next? with
    | some (_, .pause) =>
      (LimitedTaskQueue.step s (.advance i)).map fun s' => (s', some (.copied i l s.resumers.length))
    | _ => none
  | .copied i l t => moveAssign s i l t
  | .moving i l r _ => if s.outsideQueues i then some (take s l r, none) else none

/-- One step, where `queues l` are the `m_queues` of the `LimitedTaskQueue` number `l`. -/
def step (queues : ℕ → List (Fin k)) (s : State k) : Label → Option (State k)
  | .program a =>
    if s.permits a then
      (LimitedTaskQueue.step s.program a).map fun s' => { s with program := s' }
    else none
  | .push i g l =>
    if s.idle i && s.program.userCode i then
      some { s with program := s.program.enter i ⟨s.program.nextAction, g, false, queues l⟩ }
    else none
  | .pushAndPause i g l =>
    if s.idle i && s.program.userCode i then
      some { s with program := s.program.enter i ⟨s.program.nextAction, g, true, queues l⟩ }
    else none
  | .copyAssign i l r =>
    if s.idle i && s.program.userCode i && s.free l && s.free r && l < s.program.resumers.length then
      (copyAssign s.program i l r).map fun (s', a) =>
        { program := s', assignments := s.assignments ++ [a] }
    else none
  | .moveAssign i l r =>
    if s.idle i && s.program.userCode i && s.free l && s.free r && r < s.program.resumers.length then
      (moveAssign s.program i l r).map fun (s', a) =>
        { program := s', assignments := s.assignments ++ [a] }
    else none
  | .goOn n =>
    match s.assignments[n]? with
    | some (some a) =>
      (a.step s.program).map fun (s', a') =>
        { program := s', assignments := s.assignments.set n a' }
    | _ => none

/-- The states that some interleaving reaches from empty queues. -/
abbrev Reachable (queues : ℕ → List (Fin k)) (s : State k) : Prop :=
  Reaches (step queues) {} s

end UnifyPrototype.LimitedTaskQueue.Resumer
