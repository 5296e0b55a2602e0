import UnifyPrototype.SerialTaskQueue.Steps

/-!
# Tasks are conserved

Every task object is in `m_tasks` or with exactly one thread: no operation drops or copies one
before its action has been executed.
-/

namespace UnifyPrototype.SerialTaskQueue

open UnifyPrototype.Utils

variable {α : Type} {m : Queue α} {pt : Point α} {r : Result α}

/-- The task that the operation is about, if the thread has it in its hands. -/
def Point.tasks : Point α → List (QueuedTask α)
  | .push t | .spawn _ t | .waiting t | .loop _ t | .execute _ t => [t]
  | .pick _ (.unlockPicking (some t)) => [t]
  | _ => []

/-- One operation moves tasks between `m_tasks` and the threads. -/
theorem tasks_step (v : QueuedTask α → ℕ) (h : pt.step m = some r) :
    r.weight (fun p => tally v p.tasks) + tally v r.queue.tasks
      = tally v pt.tasks + tally v m.tasks := by
  cases operation h with
  | push t => simp [Result.weight, Point.tasks, Nat.add_comm]
  | pop c htasks => simp [Result.weight, Point.tasks, htasks]
  | _ => simp [Result.weight, Point.tasks]

/-- What holds of the tasks in `m_tasks` and of those with the thread holds of them afterwards. -/
lemma forall_tasks_step {P : QueuedTask α → Prop} (h : pt.step m = some r)
    (hm : ∀ t ∈ m.tasks, P t) (hpt : ∀ t ∈ pt.tasks, P t) :
    (∀ t ∈ r.queue.tasks, P t) ∧ ∀ p ∈ r.points, ∀ t ∈ p.tasks, P t := by
  classical
  set v : QueuedTask α → ℕ := fun t => if P t then 0 else 1 with hv
  have hzero {l : List (QueuedTask α)} : tally v l = 0 ↔ ∀ t ∈ l, P t := by
    rw [tally_eq_zero]
    exact forall₂_congr fun t _ => by simp [hv]
  have hstep := tasks_step v h
  rw [hzero.mpr hm, hzero.mpr hpt, Result.weight_eq_tally] at hstep
  have hpoints : tally (fun p : Point α => tally v p.tasks) r.points = 0 := by omega
  exact ⟨hzero.mp (by omega), fun p hp => hzero.mp (tally_eq_zero.mp hpoints p hp)⟩

/-- The thread that begins to execute a task had it in its hands. -/
lemma eq_loop_of_execute {g : ℕ} {t : QueuedTask α} (h : pt.step m = some r)
    (hr : .execute g t ∈ r.points) : pt = .loop g t := by
  cases operation h with
  | loop g' t' =>
    obtain ⟨rfl, rfl⟩ : g' = g ∧ t' = t := by simpa [Result.points, eq_comm] using hr
    rfl
  | _ => simp [Result.points] at hr

end UnifyPrototype.SerialTaskQueue
