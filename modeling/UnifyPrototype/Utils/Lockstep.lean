import Mathlib.Tactic.Common

/-!
# Computations that may fail, one and two at a time

`Ensures` is about one computation, `Lockstep` about two side by side. Each goes through a sequence of
computations by its rule for `>>=`, so what is known of the parts gives what is known of the whole.
-/

namespace UnifyPrototype.Utils

universe u

variable {ε : Type*} {A A' B B' S : Type u} {P : A → Prop} {Q : B → Prop} {R : A → A' → Prop}
  {T : B → B' → Prop}
  {allowed : ε → Prop} {x : Except ε A} {y : Except ε A'}

/-! ## One computation -/

/-- If `x` returns, then what it returns satisfies `P`; if it fails, then as allowed. -/
def Ensures (allowed : ε → Prop) (P : A → Prop) : Except ε A → Prop
  | .ok a => P a
  | .error e => allowed e

lemma Ensures.mono {P' : A → Prop} (h : Ensures allowed P x) (himp : ∀ a, P a → P' a) :
    Ensures allowed P' x := by
  cases x with
  | ok a => exact himp a h
  | error e => exact h

lemma Ensures.bind {f : A → Except ε B} (h : Ensures allowed P x)
    (hf : ∀ a, P a → Ensures allowed Q (f a)) : Ensures allowed Q (x >>= f) := by
  cases x with
  | ok a => exact hf a h
  | error e => exact h

/-- **Loop rule.** What each step keeps, the loop keeps. -/
lemma Ensures.foldlM {I : S → Prop} {step : S → A → Except ε S} {s : S} (as : List A) (hs : I s)
    (hstep : ∀ s a, I s → Ensures allowed I (step s a)) : Ensures allowed I (as.foldlM step s) := by
  induction as generalizing s with
  | nil => exact hs
  | cons a as ih =>
    rw [List.foldlM_cons]
    apply (hstep s a hs).bind
    intro t ht
    exact ih ht

/-! ## Two computations -/

/-- Both fail the same way, or both return and the results are related. -/
inductive Lockstep (R : A → A' → Prop) : Except ε A → Except ε A' → Prop
  | error (e : ε) : Lockstep R (.error e) (.error e)
  | ok {a : A} {a' : A'} : R a a' → Lockstep R (.ok a) (.ok a')

namespace Lockstep

lemma bind {f : A → Except ε B} {g : A' → Except ε B'} (h : Lockstep R x y)
    (hf : ∀ a a', R a a' → Lockstep T (f a) (g a')) : Lockstep T (x >>= f) (y >>= g) := by
  cases h with
  | error e => exact .error e
  | ok h => exact hf _ _ h

/-- The same rule, when it matters what the second one has returned. -/
lemma bind_of_eq {f : A → Except ε B} {g : A' → Except ε B'} (h : Lockstep R x y)
    (hf : ∀ a a', y = .ok a' → R a a' → Lockstep T (f a) (g a')) : Lockstep T (x >>= f) (y >>= g) := by
  cases h with
  | error e => exact .error e
  | ok h => exact hf _ _ rfl h

/-- If the second one returns, so does the first. -/
lemma exists_left {a' : A'} (h : Lockstep R x (.ok a')) : ∃ a, x = .ok a ∧ R a a' := by
  cases h with
  | ok h => exact ⟨_, rfl, h⟩

/-- If the first one returns, so does the second. -/
lemma exists_right {a : A} (h : Lockstep R (.ok a) y) : ∃ a', y = .ok a' ∧ R a a' := by
  cases h with
  | ok h => exact ⟨_, rfl, h⟩

end Lockstep

end UnifyPrototype.Utils
