import UnifyPrototype.WaitingTaskList.Model

/-!
# `reset` while calls of the last epoch are still in progress

`announce` releases a task when it is done with its node, "since the task may indirectly call
`WaitingTaskList::reset`". So `reset` can start when everything is released although `add` and
`doneWaiting` have not returned. Here each statement of `reset` is one step, and the calls that are
left from earlier epochs go on between them and in the next epoch.
-/

namespace UnifyPrototype.WaitingTaskList

open UnifyPrototype.Utils

variable {E : Type}

/-- The next statement of `reset`. -/
inductive ResetPoint
  | clearException
  | readIndex
  | zeroIndex (nSeenTasks : ℕ)
  | checkHead (nSeenTasks : ℕ)
  | expandCache (nSeenTasks : ℕ)
  | setWaiting
deriving DecidableEq, Repr

/-- A call that was in progress when its epoch ended, and the number of the cache that it knows. -/
structure Earlier (E : Type) where
  point : Point E
  cache : ℕ
deriving DecidableEq, Repr

/-- The list with the calls of this epoch; the calls of earlier epochs; where `reset` is, if it is in
progress; and how often it has replaced the cache. -/
structure Epochs (E : Type) where
  list : State E
  earlier : List (Earlier E) := []
  resetting : Option ResetPoint := none
  cache : ℕ := 0

/-- The constructor. -/
def Epochs.init (iInitialSize : ℕ) : Epochs E :=
  { list := WaitingTaskList.init iInitialSize }

/-! ## `reset` -/

/-- `reset` is called once `doneWaiting` was called and everything that was added is released. The
records of the epoch end here. -/
def Epochs.startReset (s : Epochs E) : Option (Epochs E) :=
  if s.resetting = none ∧ s.list.done ≠ none ∧ ∀ t ∈ s.list.added, t ∈ s.list.released then
    some { s with
      list := { s.list with
        threads := s.list.threads.map fun _ => none
        added := []
        done := none
        failed := []
        released := [] }
      earlier := s.earlier ++ s.list.threads.filterMap (·.map (⟨·, s.cache⟩))
      resetting := some .clearException }
  else none

/-- One statement of `reset`. -/
def Epochs.advanceReset (s : Epochs E) : Option (Epochs E) :=
  match s.resetting with
  | none => none
  | some .clearException =>
    some { s with list := { s.list with exceptionPtr := none }, resetting := some .readIndex }
  | some .readIndex =>
    some { s with resetting := some (.zeroIndex s.list.lastAssignedCacheIndex) }
  | some (.zeroIndex nSeenTasks) => some { s with
      list := { s.list with lastAssignedCacheIndex := 0 }
      resetting := some (.checkHead nSeenTasks) }
  | some (.checkHead nSeenTasks) =>
    -- the assertion
    if s.list.head = none then some { s with resetting := some (.expandCache nSeenTasks) } else none
  | some (.expandCache nSeenTasks) =>
    if nSeenTasks > s.list.nodeCache.length then some { s with
      list := { s.list with nodeCache := List.replicate nSeenTasks newCached }
      resetting := some .setWaiting
      cache := s.cache + 1 }
    else some { s with resetting := some .setWaiting }
  | some .setWaiting =>
    some { s with list := { s.list with waiting := true }, resetting := none }

/-! ## The calls of earlier epochs -/

/-- Call `j` is now at `p`, or has returned. -/
def Epochs.goOn (s : Epochs E) (j : ℕ) (e : Earlier E) (r : State E × Option (Point E)) : Epochs E :=
  { s with
    list := r.1
    earlier := match r.2 with
      | some pt => s.earlier.set j { e with point := pt }
      | none => s.earlier.eraseIdx j }

/-- One operation of call `j`. A node of a cache that `reset` has replaced is no longer there. A call
that takes the list is one of the calls of this epoch from then on, as it has the references of this
epoch. -/
def Epochs.advanceEarlier (s : Epochs E) (j a : ℕ) : Option (Epochs E) :=
  match s.earlier[j]? with
  | none => none
  | some e =>
    match e.point with
    | .exchangeNull => some { s with
        list := { s.list with
          head := none
          threads := s.list.threads ++ [s.list.head.map .readNext] }
        earlier := s.earlier.eraseIdx j }
    | .setNextAgain _ (.cached _) =>
      if e.cache = s.cache then (e.point.step s.list a).map (s.goOn j e)
      else some (s.goOn j e (s.list, some .recheckWaiting))
    | pt => (pt.step s.list a).map (s.goOn j e)

/-! ## Steps -/

/-- The moves: those of the list, except that its `reset` is not one step; `reset` is called; `reset`
makes its next step; call `j` of an earlier epoch does. -/
inductive EpochLabel (E : Type)
  | list (b : Label E)
  | reset
  | advanceReset
  | advanceEarlier (j a : ℕ)
deriving DecidableEq, Repr

/-- No call starts before `reset` returns. -/
def Label.mayStart (resetting : Bool) : Label E → Bool
  | .reset => false
  | .add _ _ _ _ | .doneWaiting _ _ => !resetting
  | _ => true

/-- One step. -/
def Epochs.step (s : Epochs E) : EpochLabel E → Option (Epochs E)
  | .list b =>
    if b.mayStart s.resetting.isSome then (WaitingTaskList.step s.list b).map ({ s with list := · })
    else none
  | .reset => s.startReset
  | .advanceReset => s.advanceReset
  | .advanceEarlier j a => s.advanceEarlier j a

/-- When nobody else is in the list, the statements of `reset` together are the one step. -/
theorem reset_eq {s : Epochs E} (hidle : s.list.Idle) (hhead : s.list.head = none)
    (hearlier : s.earlier = []) (hresetting : s.resetting = none) (hdone : s.list.done ≠ none)
    (hreleased : ∀ t ∈ s.list.added, t ∈ s.list.released) :
    ∃ cache, executeAll Epochs.step s (.reset :: List.replicate 6 .advanceReset)
      = some { s with list := s.list.reset, cache := cache } := by
  have hthreads : s.list.threads.map (fun _ => none) = s.list.threads := by
    conv_rhs => rw [← List.map_id s.list.threads]
    exact List.map_congr_left fun p hp => (hidle p hp).symm
  have hleft : s.list.threads.filterMap (·.map (⟨·, s.cache⟩)) = ([] : List (Earlier E)) :=
    List.filterMap_eq_nil_iff.mpr fun p hp => by rw [hidle p hp]; rfl
  have hstart : s.startReset = some { s with
      list := { s.list with added := [], done := none, failed := [], released := [] }
      resetting := some .clearException } := by
    simp only [Epochs.startReset, hthreads, hleft, hearlier, List.append_nil]
    exact if_pos ⟨hresetting, hdone, hreleased⟩
  by_cases hgrow : s.list.lastAssignedCacheIndex > s.list.nodeCache.length
  · refine ⟨s.cache + 1, ?_⟩
    simp [executeAll, execute, hstart, Epochs.step, Epochs.advanceReset, State.reset, hhead, hgrow,
      hresetting, List.replicate]
  · refine ⟨s.cache, ?_⟩
    simp [executeAll, execute, hstart, Epochs.step, Epochs.advanceReset, State.reset, hhead, hgrow,
      hresetting, List.replicate]

end UnifyPrototype.WaitingTaskList
