import Mathlib.Data.List.Basic

/-!
# Lists of threads

A thread is at a program point or at none. What a thread is at after one thread has moved, or after a
new one has appeared.
-/

namespace UnifyPrototype.Utils

variable {P : Type*} {threads : List (Option P)} {i j : ℕ} {p : Option P} {pt : P}

/-- A thread that is at a point is the one that moved there, or was there before. -/
lemma getElem?_goto (h : (threads.set i p)[j]? = some (some pt)) :
    j = i ∧ p = some pt ∨ j ≠ i ∧ threads[j]? = some (some pt) := by
  by_cases hj : i = j
  · subst hj
    rw [List.getElem?_set] at h
    split at h
    · split at h
      · exact .inl ⟨rfl, Option.some.inj h⟩
      · cases h
    next hne => exact absurd rfl hne
  · rw [List.getElem?_set_ne hj] at h
    exact .inr ⟨Ne.symm hj, h⟩

/-- A new thread is at no point. -/
lemma getElem?_fork (h : (threads ++ [none])[i]? = some (some pt)) : threads[i]? = some (some pt) := by
  rcases Nat.lt_or_ge i threads.length with hlt | hge
  · rwa [List.getElem?_append_left hlt] at h
  · rw [List.getElem?_append_right hge] at h
    rcases hn : i - threads.length with _ | n <;> rw [hn] at h <;> simp at h

end UnifyPrototype.Utils
