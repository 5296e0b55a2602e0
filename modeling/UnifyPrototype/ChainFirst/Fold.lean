import UnifyPrototype.ChainFirst.Model

/-!
# What a chain means

The stages of a chain are a left fold over the exception state: each stage is given the pending
exception and calls a functor or none, and the first failure of that functor may be the exception
that is pending next.
-/

namespace UnifyPrototype.ChainFirst

variable {N E : Type}

/-! ## One stage -/

/-- The functor that a stage calls when `x` is pending. -/
def Stage.calls : Stage N → Option E → List (Call N E)
  | .oneArgument _, some _ => []
  | .oneArgument f, none => [.run f]
  | .ifException except _, some e => [.except except e]
  | .ifException _ f, none => [.run f]
  | .twoArguments f, x => [.runWith f x]

/-- The exception that is pending after it, given the first failure that its functor reported or
threw. -/
def Stage.outcome : Stage N → Option E → Option E → Option E
  | .oneArgument _, some e, _ => some e
  | .oneArgument _, none, failure => failure
  | .ifException _ _, some e, _ => some e
  | .ifException _ _, none, failure => failure
  | .twoArguments _, _, failure => failure

/-- The stage calls a functor that is given a holder, so that it may fail. -/
def Stage.runs : Stage N → Option E → Bool
  | .oneArgument _, x | .ifException _ _, x => x.isNone
  | .twoArguments _, _ => true

/-- A stage whose functor does not run does not ask whether it fails. -/
lemma Stage.outcome_congr (f : Stage N) {x o o' : Option E} (h : f.runs x = true → o = o') :
    f.outcome x o = f.outcome x o' := by
  cases f with
  | oneArgument g | ifException except g =>
    cases x with
    | none => exact h rfl
    | some e => rfl
  | twoArguments g => exact h rfl

/-! ## All stages -/

/-- A stage whose condition is false does not take part. -/
def Link.stage : Link N → Option (Stage N)
  | .then f => some f
  | .ifThen value f => if value then some f else none

/-- The stages of `first(f) | links[0] | ...` in their order. -/
def stages (f : Stage N) (links : List (Link N)) : List (Stage N) :=
  f :: links.filterMap Link.stage

variable {l : List (Stage N)} {x : Option E} {failure failure' : ℕ → Option E}

/-- What is pending before the stage `k`, if it is `x` at first and the functor of the stage `j` fails
with `failure j`. -/
def before (l : List (Stage N)) (x : Option E) (failure : ℕ → Option E) : ℕ → Option E
  | 0 => x
  | k + 1 =>
    match l[k]? with
    | some f => f.outcome (before l x failure k) (failure k)
    | none => before l x failure k

/-- The functors that the first `k` stages call. -/
def callsBefore (l : List (Stage N)) (x : Option E) (failure : ℕ → Option E) :
    ℕ → List (Call N E)
  | 0 => []
  | k + 1 => callsBefore l x failure k ++
    match l[k]? with
    | some f => f.calls (before l x failure k)
    | none => []

/-- What is pending after one stage more. -/
lemma before_succ {k : ℕ} {f : Stage N} (hf : l[k]? = some f) :
    before l x failure (k + 1) = f.outcome (before l x failure k) (failure k) := by
  simp only [before, hf]

/-- The calls of one stage more. -/
lemma callsBefore_succ {k : ℕ} {f : Stage N} (hf : l[k]? = some f) :
    callsBefore l x failure (k + 1)
      = callsBefore l x failure k ++ f.calls (before l x failure k) := by
  simp only [callsBefore, hf]

/-- Only the stages before `k` matter. -/
lemma before_congr {k : ℕ} (h : ∀ j < k, failure j = failure' j) :
    before l x failure k = before l x failure' k := by
  induction k with
  | zero => rfl
  | succ k ih =>
    have hk := ih fun j hj => h j (Nat.lt_succ_of_lt hj)
    simp only [before, hk, h k (Nat.lt_succ_self k)]

/-- The calls of the first stages depend on their own failures only. -/
lemma callsBefore_congr {k : ℕ} (h : ∀ j, j + 1 < k → failure j = failure' j) :
    callsBefore l x failure k = callsBefore l x failure' k := by
  induction k with
  | zero => rfl
  | succ k ih =>
    have hk := ih fun j hj => h j (Nat.lt_succ_of_lt hj)
    have hbefore : before l x failure k = before l x failure' k :=
      before_congr fun j hj => h j (Nat.succ_lt_succ hj)
    simp only [callsBefore, hk, hbefore]

/-- The functors fail as `b` says: the functor of the stage `k`, called when `y` is pending, first
reports or throws `b k y`. -/
def Follows (l : List (Stage N)) (x : Option E) (failure : ℕ → Option E)
    (b : ℕ → Option E → Option E) : Prop :=
  ∀ k f, l[k]? = some f → f.runs (before l x failure k) = true →
    failure k = b k (before l x failure k)

/-- Functors that behave in the same way lead to the same pending exceptions. -/
lemma Follows.before_eq {b : ℕ → Option E → Option E} (h : Follows l x failure b)
    (h' : Follows l x failure' b) (k : ℕ) : before l x failure k = before l x failure' k := by
  induction k with
  | zero => rfl
  | succ k ih =>
    cases hf : l[k]? with
    | none =>
      simp only [before, hf]
      exact ih
    | some f =>
      rw [before_succ hf, before_succ hf, ← ih]
      apply f.outcome_congr
      intro hruns
      rw [h k f hf hruns, h' k f hf (ih ▸ hruns), ih]

/-- And they are called in the same way. -/
lemma Follows.callsBefore_eq {b : ℕ → Option E → Option E} (h : Follows l x failure b)
    (h' : Follows l x failure' b) (k : ℕ) :
    callsBefore l x failure k = callsBefore l x failure' k := by
  induction k with
  | zero => rfl
  | succ k ih => simp only [callsBefore, ih, h.before_eq h' k]

/-- **The stages are a left fold.** -/
theorem before_length (l : List (Stage N)) (x : Option E) (failure : ℕ → Option E) :
    before l x failure l.length
      = l.zipIdx.foldl (fun x f => f.1.outcome x (failure f.2)) x := by
  have hbegins : ∀ k ≤ l.length, before l x failure k
      = (l.take k).zipIdx.foldl (fun x f => f.1.outcome x (failure f.2)) x := by
    intro k hk
    induction k with
    | zero => rfl
    | succ k ih =>
      have hf := List.getElem?_eq_getElem (Nat.lt_of_succ_le hk)
      rw [before_succ hf, ih (Nat.le_of_succ_le hk), List.take_add_one, hf, List.zipIdx_append,
        List.foldl_append]
      simp [Nat.min_eq_left (Nat.le_of_succ_le hk)]
  simpa using hbegins l.length le_rfl

end UnifyPrototype.ChainFirst
