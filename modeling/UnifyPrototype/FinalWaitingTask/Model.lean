import UnifyPrototype.WaitingTask.Model

/-!
# `syncWait`

A shallow embedding of `FinalWaitingTask.h` and `include_first_syncWait.h`. The task `last` is the
`WaitingTask` that the holders share, and what other threads do with these is taken from there. Here
are added the override of `recycle`, the function given to `syncWait`, the other tasks of the group
and the thread that waits.
-/

namespace UnifyPrototype.FinalWaitingTask

open UnifyPrototype.Utils

/-! ## The state -/

/-- The functor behind `m_handle`: not given to the group yet, waiting in the group, over. -/
inductive Handle
  | deferred
  | pending
  | ran
deriving DecidableEq, Repr

/-- The function given to `syncWait`. While it runs, on thread `i`, its argument is holder `h`. -/
inductive Function
  | toBeRun
  | pending
  | running (i h : ℕ)
  | over
deriving DecidableEq, Repr

/-- The thread that called `syncWait`. -/
inductive Waiter (E : Type)
  | constructed
  | waiting
  | waited
  | returned (r : Option E)
deriving DecidableEq, Repr

/-- `task_group::wait` has returned. -/
def Waiter.groupWaited {E : Type} : Waiter E → Bool
  | .constructed | .waiting => false
  | .waited | .returned _ => true

/-- `last.run` counts the functors of `last` that wait in the group, `sentries` those that have
called `execute` and not `recycle` yet, and `ending` those that have called `recycle` and are not
over. `others` are the tasks of the group that other activities gave to it. -/
structure State (E : Type) where
  last : WaitingTask.State E := {}
  handle : Handle := .deferred
  done : Bool := false
  sentries : ℕ := 0
  ending : ℕ := 0
  function : Function := .toBeRun
  others : ℕ := 0
  waiter : Waiter E := .constructed
deriving DecidableEq, Repr

variable {E : Type}

/-- What is assumed of `task_group::wait` when it returns: no task of the group is pending or
running, and no deferred `task_handle` of it is still to be run. -/
def State.GroupDone (s : State E) : Prop :=
  s.function = .over ∧ s.last.run = 0 ∧ s.sentries = 0 ∧ s.ending = 0 ∧ s.others = 0 ∧
    s.handle = .ran

instance (s : State E) : Decidable s.GroupDone :=
  inferInstanceAs (Decidable (_ ∧ _))

/-! ## Steps -/

/-- The moves: `syncWait` gives the function to the group; some thread runs it and it ends; a thread
uses holders; a functor of `last` calls `execute`, `recycle`, and ends; the functor of the handle
runs; another task of the group begins or ends; `task_group::wait` returns, and then
`waitNoThrow`. -/
inductive Label (E : Type)
  | run
  | beginFunction (i : ℕ)
  | endFunction
  | holders (l : WaitingTask.Label E)
  | execute
  | recycle
  | endExecute
  | runHandle
  | runOther
  | endOther
  | waitReturns
  | returns
deriving DecidableEq, Repr

/-- What the activities do with holders. The first one is made by `syncWait`, and `execute` has a
label of its own. -/
def byHolders : WaitingTask.Label E → Bool
  | .call _ (.wrap _) | .group => false
  | _ => true

/-- One step. -/
def step (s : State E) : Label E → Option (State E)
  | .run =>
    match s.waiter with
    | .constructed => some { s with function := .pending, waiter := .waiting }
    | _ => none
  | .beginFunction i =>
    match s.function with
    | .pending =>
      (WaitingTask.step s.last (.call i (.wrap .taskHolder))).map fun last =>
        { s with last := last, function := .running i s.last.holders.length }
    | _ => none
  | .endFunction =>
    match s.function with
    | .running i h =>
      match s.last.threads[i]?, s.last.holders[h]? with
      | some none, some none => some { s with function := .over }
      | _, _ => none
    | _ => none
  | .holders l =>
    if byHolders l then (WaitingTask.step s.last l).map fun last => { s with last := last }
    else none
  | .execute =>
    (WaitingTask.step s.last .group).map fun last =>
      { s with last := last, done := true, sentries := s.sentries + 1 }
  | .recycle =>
    if s.sentries = 0 then none
    else
      match s.handle with
      | .deferred => some { s with
          handle := .pending, sentries := s.sentries - 1, ending := s.ending + 1 }
      | _ => none
  | .endExecute => if s.ending = 0 then none else some { s with ending := s.ending - 1 }
  | .runHandle =>
    match s.handle with
    | .pending => some { s with handle := .ran }
    | _ => none
  | .runOther => some { s with others := s.others + 1 }
  | .endOther => if s.others = 0 then none else some { s with others := s.others - 1 }
  | .waitReturns =>
    match s.waiter with
    | .waiting => if s.GroupDone then some { s with waiter := .waited } else none
    | _ => none
  | .returns =>
    match s.waiter with
    | .waited => some { s with waiter := .returned s.last.task.exceptionPtr }
    | _ => none

/-- The states that some interleaving reaches from a call of `syncWait`. -/
abbrev Reachable (s : State E) : Prop :=
  Reaches step {} s

end UnifyPrototype.FinalWaitingTask
