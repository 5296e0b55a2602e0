import UnifyPrototype.ThreadSafeAddOnlyContainer.Held
import UnifyPrototype.Utils.Cost

/-!
# How often `makeAndHold` tries again

One call can find `front_` changed any number of times. But each time another call has published its
node, and it keeps each of the other threads from succeeding only once. So all calls together do a
bounded number of operations for each call, whoever has to try again.
-/

namespace UnifyPrototype.ThreadSafeAddOnlyContainer

open UnifyPrototype.Utils

variable {T Args : Type} {construct : Args → T} {s s' : State T Args} {i n : ℕ}
  {p q : Option (Point Args)}

/-! ## What is left to do -/

/-- One for a call that has read another `front_` than there is now. -/
def stale (front : Option ℕ) : Option (Point Args) → ℕ
  | some (.new expected _) | some (.compareExchange expected _) | some (.setNext expected _) =>
    if expected = front then 0 else 1
  | _ => 0

/-- The operations that a call has left if what it has read of `front_` stays. -/
def remaining : Option (Point Args) → ℕ
  | some (.load _) => 4
  | some (.new _ _) | some (.setNext _ _) => 3
  | some (.compareExchange _ _) => 2
  | some (.address _) => 1
  | none => 0

/-- One for a call that has not published its node. -/
def unpublished : Option (Point Args) → ℕ
  | some (.address _) | none => 0
  | _ => 1

/-- What a thread has left to do if `front_` stays, and what it has paid for the `n` others that it may
make try again. -/
def own (n : ℕ) (p : Option (Point Args)) : ℕ :=
  remaining p + 2 * n * unpublished p

/-- With the two operations more of a call that has to try again. -/
def due (n : ℕ) (front : Option ℕ) (p : Option (Point Args)) : ℕ :=
  own n p + 2 * stale front p

def State.potential (n : ℕ) (s : State T Args) : ℕ :=
  tally (due n s.front) s.threads

/-- One for an operation of a call. -/
def operation (_ : State T Args) : Label Args → ℕ
  | .advance _ | .new _ _ | .throw _ => 1
  | _ => 0

/-- One for a call. -/
def call : Label Args → ℕ
  | .makeAndHold _ _ => 1
  | _ => 0

/-- There are at most `n` threads and one more. -/
def fewThreads (n : ℕ) (s : State T Args) : Label Args → Bool
  | .fork => s.threads.length ≤ n
  | _ => true

/-! ## Steps -/

lemma stale_le_one (front : Option ℕ) (p : Option (Point Args)) : stale front p ≤ 1 := by
  unfold stale
  split
  all_goals first | (split <;> omega) | omega

/-- A step of thread `i` that leaves `front_` as it is, costs `c` and is paid `d`. -/
lemma potential_set {c d : ℕ} (hi : s.threads[i]? = some q)
    (hthreads : s'.threads = s.threads.set i p) (hfront : s'.front = s.front)
    (hdue : c + due n s.front p ≤ due n s.front q + d) :
    c + s'.potential n ≤ s.potential n + d := by
  have hset := tally_set (due n s.front) p hi
  unfold State.potential
  rw [hthreads, hfront]
  omega

/-- A success: each of the others may have to try again, which the call has paid for. -/
lemma potential_success (hfew : s.threads.length ≤ n + 1) {expected : Option ℕ} {newNode : ℕ}
    (hi : s.threads[i]? = some (some (.compareExchange expected newNode)))
    (hthreads : s'.threads = s.threads.set i (some (.address newNode))) :
    1 + s'.potential n ≤ s.potential n := by
  have hothers : tally (stale s'.front) s'.threads < s'.threads.length := by
    refine tally_lt_length (fun r _ => stale_le_one _ r) (a := some (.address newNode)) ?_ rfl
    rw [hthreads]
    exact List.mem_set (List.getElem?_eq_some_iff.mp hi).1 _
  rw [hthreads, List.length_set] at hothers
  have hset := tally_set (own n) (some (.address newNode)) hi
  have hbefore : tally (own n) s.threads ≤ s.potential n :=
    tally_le_tally fun r _ => Nat.le_add_right _ _
  have hafter : s'.potential n = tally (own n) (s.threads.set i (some (.address newNode)))
      + 2 * tally (stale s'.front) (s.threads.set i (some (.address newNode))) := by
    rw [← tally_mul, ← tally_add, ← hthreads]
    rfl
  have hself : own n (some (.compareExchange expected newNode) : Option (Point Args)) = 2 + 2 * n * 1 :=
    rfl
  have hself' : own n (some (.address newNode) : Option (Point Args)) = 1 + 2 * n * 0 := rfl
  omega

/-- An operation is paid for: a failed exchange by the one that made it fail. -/
lemma potential_advance {pt : Point Args} {r : State T Args × Option (Point Args)}
    (hfew : s.threads.length ≤ n + 1) (hi : s.threads[i]? = some (some pt))
    (h : pt.step s = some r) :
    1 + State.potential n { r.1 with threads := s.threads.set i r.2 } ≤ s.potential n := by
  cases pt with
  | load args =>
    obtain rfl := Option.some.inj h
    refine potential_set (d := 0) hi rfl rfl ?_
    simp only [due, own, remaining, stale, unpublished, if_true]
    omega
  | new => cases h
  | compareExchange expected newNode =>
    simp only [Point.step] at h
    split at h
    next hfront =>
      obtain rfl := Option.some.inj h
      exact potential_success hfew hi rfl
    next hfront =>
      obtain rfl := Option.some.inj h
      refine potential_set (d := 0) hi rfl rfl ?_
      simp only [due, own, remaining, stale, unpublished, if_true, if_neg (Ne.symm hfront)]
      omega
  | setNext expected newNode =>
    obtain ⟨node, -, rfl⟩ := Option.map_eq_some_iff.mp h
    refine potential_set (d := 0) hi rfl rfl ?_
    simp only [due, own, remaining, stale, unpublished]
    omega
  | address newNode =>
    obtain ⟨node, -, rfl⟩ := Option.map_eq_some_iff.mp h
    refine potential_set (d := 0) hi rfl rfl ?_
    simp only [due, own, remaining, stale, unpublished]
    omega

/-- The destructor is about the nodes. -/
lemma destructor_frame {r : State T Args × Destructor} (h : s.destructor.step s = some r) :
    r.1.threads = s.threads ∧ r.1.front = s.front := by
  unfold Destructor.step at h
  split at h
  · cases h
  · obtain rfl := Option.some.inj h
    exact ⟨rfl, rfl⟩
  · obtain rfl := Option.some.inj h
    exact ⟨rfl, rfl⟩
  · obtain ⟨node, -, rfl⟩ := Option.map_eq_some_iff.mp h
    exact ⟨rfl, rfl⟩
  · obtain ⟨node, -, rfl⟩ := Option.map_eq_some_iff.mp h
    exact ⟨rfl, rfl⟩
  · cases h

/-- What a call is paid. -/
def price (n : ℕ) (b : Label Args) : ℕ :=
  (2 * n + 4) * call b

/-- So is every step, with no more than `n` other threads. -/
lemma potential_step {b : Label Args} (hfew : s.threads.length ≤ n + 1)
    (hpermitted : fewThreads n s b = true) (hstep : step construct s b = some s') :
    s'.threads.length ≤ n + 1 ∧ operation s b + s'.potential n ≤ s.potential n + price n b := by
  cases b with
  | fork =>
    obtain rfl := Option.some.inj hstep
    have hlt : s.threads.length ≤ n := by simpa [fewThreads] using hpermitted
    refine ⟨by simpa using hlt, ?_⟩
    show 0 + tally (due n s.front) (s.threads ++ [none]) ≤ _
    rw [tally_append, tally_cons, tally_nil]
    simp only [State.potential, due, own, remaining, stale, unpublished]
    omega
  | makeAndHold i args =>
    simp only [step] at hstep
    split at hstep
    next hi =>
      obtain rfl := Option.some.inj hstep
      refine ⟨by simpa using hfew, potential_set hi rfl rfl ?_⟩
      simp only [due, own, remaining, stale, unpublished, operation, price, call]
      omega
    next => cases hstep
  | advance i =>
    simp only [step] at hstep
    split at hstep
    next pt hi =>
      obtain ⟨r, hr, rfl⟩ := Option.map_eq_some_iff.mp hstep
      exact ⟨by simpa using hfew, potential_advance hfew hi hr⟩
    next => cases hstep
  | new i a =>
    simp only [step] at hstep
    split at hstep
    next expected args hi ha =>
      obtain rfl := Option.some.inj hstep
      refine ⟨by simpa using hfew, potential_set hi rfl rfl ?_⟩
      simp only [due, own, remaining, stale, unpublished, operation, price, call]
      omega
    next => cases hstep
  | throw i =>
    simp only [step] at hstep
    split at hstep
    next expected args hi =>
      obtain rfl := Option.some.inj hstep
      refine ⟨by simpa using hfew, potential_set hi rfl rfl ?_⟩
      simp only [due, own, remaining, stale, unpublished, operation, price, call]
      omega
    next => cases hstep
  | destroy =>
    simp only [step] at hstep
    split at hstep
    next =>
      obtain rfl := Option.some.inj hstep
      exact ⟨hfew, (Nat.zero_add _).le.trans (Nat.le_add_right _ _)⟩
    next => cases hstep
  | advanceDestructor =>
    obtain ⟨r, hr, rfl⟩ := Option.map_eq_some_iff.mp hstep
    obtain ⟨hthreads, hfront⟩ := destructor_frame hr
    refine ⟨?_, ?_⟩
    · show r.1.threads.length ≤ n + 1
      rw [hthreads]
      exact hfew
    · show 0 + tally (due n r.1.front) r.1.threads ≤ tally (due n s.front) s.threads + 0
      rw [hthreads, hfront]
      omega

end UnifyPrototype.ThreadSafeAddOnlyContainer
