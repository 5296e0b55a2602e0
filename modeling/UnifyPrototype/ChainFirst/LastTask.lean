import UnifyPrototype.ChainFirst.Fold
import Mathlib.Data.List.Induction

/-!
# The tasks of a chain

`lastTask` makes one task for each stage that takes part. The task of the first stage is the newest
one, and each has the holder of the one that was made before it.
-/

namespace UnifyPrototype.ChainFirst

open UnifyPrototype.Utils

variable {N E : Type} {s s' : State N E} {v h t : ℕ}

/-- The handlers of the tasks that `lastTask` makes, in the order of the stages. -/
def WaitingTaskChain.handlers : WaitingTaskChain N → List (Handler N)
  | .single f => [f]
  | .cons f l => l.handlers ++ [f]
  | .conditional condition f l => l.handlers ++ if condition then [f] else []

/-- The chain has a handler for each of its stages. -/
lemma handlers_chainOf (f : Stage N) (links : List (Link N)) :
    (chainOf f links).handlers = (stages f links).map Stage.handler := by
  induction links using List.reverseRecOn with
  | nil => rfl
  | append_singleton links link ih =>
    have hfold : chainOf f (links ++ [link]) = (chainOf f links).pipe link := by
      simp [chainOf]
    have hstages : stages f (links ++ [link]) = stages f links ++ link.stage.toList := by
      cases hlink : link.stage <;> simp [stages, List.filterMap_append, hlink]
    rw [hfold, hstages, List.map_append, ← ih]
    cases link with
    | «then» g => rfl
    | ifThen value g => cases value <;> rfl

/-! ## Reference counts -/

@[simp] lemma task_setTask (s : State N E) (t : ℕ) (m : WaitingTask.Task E) :
    (s.setTask t m).task t = m :=
  Function.update_self _ _ _

lemma task_setTask_of_ne (s : State N E) {t t' : ℕ} (m : WaitingTask.Task E) (hne : t' ≠ t) :
    (s.setTask t m).task t' = s.task t' :=
  Function.update_of_ne hne _ _

/-- A decrement that does not come to zero undoes an increment. -/
lemma decrement_of_lt (h : 1 < (s.task t).refCount) : s.decrement t
    = s.setTask t { s.task t with refCount := (s.task t).refCount - 1 } := by
  have hne : 0 ≠ (s.task t).refCount - 1 := by omega
  simp [State.decrement, WaitingTask.Task.decrementRefCount, hne, State.setTask]

/-! ## `lastTask` -/

/-- `lastTask` has made the tasks of the stages with the handlers `l`, and `h` is the first one. -/
structure Built (s s' : State N E) (h : ℕ) (l : List (Handler N)) : Prop where
  size : s'.size = s.size + l.length
  holder : h + 1 = s'.size
  old : ∀ t < s.size, s'.lambda t = s.lambda t ∧ s'.task t = s.task t
  new : ∀ k f, l[k]? = some f →
    s'.lambda (h - k) = some ⟨f, h - (k + 1)⟩ ∧ s'.task (h - k) = { refCount := 1 }
  rest : (s'.held, s'.group, s'.points, s'.started, s'.calls, s'.reports)
    = (s.held, s.group, s.points, s.started, s.calls, s.reports)

/-- One task more is one handler more. -/
lemma built_makeWaitingTask (hv : v + 1 = s.size) (f : Handler N) :
    Built s (s.makeWaitingTask f v).1 (s.makeWaitingTask f v).2 [f] := by
  refine ⟨rfl, rfl, fun t ht => ?_, fun k g hk => ?_, rfl⟩
  · have hne : t ≠ s.size := by omega
    exact ⟨Function.update_of_ne hne _ _, Function.update_of_ne hne _ _⟩
  · obtain ⟨rfl, rfl⟩ : k = 0 ∧ f = g := by
      cases k with
      | zero => exact ⟨rfl, by simpa using hk⟩
      | succ k => simp at hk
    obtain rfl : v = s.size - 1 := by omega
    exact ⟨Function.update_self _ _ _, Function.update_self _ _ _⟩

/-- First one task, then those of the stages before it. -/
lemma Built.trans {s₁ : State N E} {f : Handler N} {l : List (Handler N)} {h₁ : ℕ}
    (hone : Built s s₁ h₁ [f]) (hrest : Built s₁ s' h l) : Built s s' h (l ++ [f]) := by
  have hsize := hone.size
  have hsize' := hrest.size
  have hholder := hone.holder
  have hholder' := hrest.holder
  simp only [List.length_singleton] at hsize
  refine ⟨?_, hrest.holder, fun t ht => ?_, fun k g hk => ?_, hrest.rest.trans hone.rest⟩
  · rw [List.length_append, List.length_singleton]
    omega
  · obtain ⟨hlambda, htask⟩ := hrest.old t (by omega)
    obtain ⟨hlambda', htask'⟩ := hone.old t ht
    exact ⟨hlambda.trans hlambda', htask.trans htask'⟩
  · rcases Nat.lt_or_ge k l.length with hlt | hge
    · rw [List.getElem?_append_left hlt] at hk
      exact hrest.new k g hk
    · -- the task that was made first
      have hk' : k = l.length := by
        have hbound := (List.getElem?_eq_some_iff.mp hk).1
        simp only [List.length_append, List.length_singleton] at hbound
        omega
      subst hk'
      have hg : [f][0]? = some g := by simpa using hk
      have hindex : h - l.length = h₁ := by omega
      have hindex' : h - (l.length + 1) = h₁ - 1 := by omega
      obtain ⟨hlambda, htask⟩ := hrest.old h₁ (by omega)
      obtain ⟨hlambda', htask'⟩ := hone.new 0 g hg
      rw [hindex, hindex']
      exact ⟨hlambda.trans hlambda', htask.trans htask'⟩

/-- **`lastTask` makes the tasks of the stages.** -/
lemma built_lastTask (chain : WaitingTaskChain N) (hv : v + 1 = s.size)
    (hone : 1 ≤ (s.task v).refCount) :
    Built s (chain.lastTask s v).1 (chain.lastTask s v).2 chain.handlers := by
  induction chain generalizing s v with
  | single f => exact built_makeWaitingTask hv f
  | cons f l ih =>
    refine (built_makeWaitingTask hv f).trans (ih rfl ?_)
    show 1 ≤ (Function.update s.task s.size _ s.size).refCount
    rw [Function.update_self]
    exact le_rfl
  | conditional condition f l ih =>
    cases condition with
    | true =>
      refine (built_makeWaitingTask hv f).trans (ih rfl ?_)
      show 1 ≤ (Function.update s.task s.size _ s.size).refCount
      rw [Function.update_self]
      exact le_rfl
    | false =>
      have hcopy : 1 ≤ ((s.increment v).task v).refCount := by
        show 1 ≤ (Function.update s.task v _ v).refCount
        rw [Function.update_self]
        exact Nat.le_add_left 1 _
      have hbuilt := ih (s := s.increment v) (v := v) hv hcopy
      show Built s ((l.lastTask (s.increment v) v).1.decrement v) (l.lastTask (s.increment v) v).2
        (l.handlers ++ [])
      rw [List.append_nil]
      generalize l.lastTask (s.increment v) v = r at hbuilt
      obtain ⟨s₁, h₁⟩ := r
      -- the copy is still there when the original is destroyed
      have hold : s₁.task v = (s.task v).incrementRefCount := by
        rw [(hbuilt.old v (by show v < s.size; omega)).2]
        exact Function.update_self _ _ _
      have hcount : 1 < (s₁.task v).refCount := by
        rw [hold]
        exact Nat.lt_add_of_pos_left hone
      rw [decrement_of_lt hcount]
      have hback : { s₁.task v with refCount := (s₁.task v).refCount - 1 } = s.task v := by
        rw [hold]
        rfl
      rw [hback]
      have hsize : s₁.size = s.size + l.handlers.length := hbuilt.size
      have hholder : h₁ + 1 = s₁.size := hbuilt.holder
      refine ⟨hsize, hholder, fun t ht => ?_, fun k g hk => ?_, hbuilt.rest⟩
      · obtain ⟨hlambda, htask⟩ := hbuilt.old t ht
        refine ⟨hlambda, ?_⟩
        by_cases htv : t = v
        · rw [htv, task_setTask]
        · rw [task_setTask_of_ne _ _ htv, htask]
          exact Function.update_of_ne htv _ _
      · obtain ⟨hlambda, htask⟩ := hbuilt.new k g hk
        have hbound := (List.getElem?_eq_some_iff.mp hk).1
        refine ⟨hlambda, ?_⟩
        rw [task_setTask_of_ne _ _ (by omega), htask]

end UnifyPrototype.ChainFirst
