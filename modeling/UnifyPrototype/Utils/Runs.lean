import Mathlib.Logic.Relation

/-!
# Runs of a labelled step function

A concurrent program is given by a function `step : S → A → Option S`: the label says which
thread moves and how a free choice is made, `none` says that this move is not possible.
An interleaving is a list of labels, so whatever holds after every list of labels holds for
every interleaving.
-/

namespace UnifyPrototype.Utils

variable {S A : Type*} {step : S → A → Option S} {ok ok' : S → A → Prop} {s t u : S}

/-- `RunsTo step ok s t`: some run leads from `s` to `t`, and `ok` holds of the state and the
label at each of its steps. -/
inductive RunsTo (step : S → A → Option S) (ok : S → A → Prop) (s : S) : S → Prop
  | refl : RunsTo step ok s s
  | tail {t u : S} {a : A} : RunsTo step ok s t → ok t a → step t a = some u → RunsTo step ok s u

/-- Reachability by any run. -/
abbrev Reaches (step : S → A → Option S) : S → S → Prop :=
  RunsTo step fun _ _ => True

namespace RunsTo

lemma trans (h₁ : RunsTo step ok s t) (h₂ : RunsTo step ok t u) : RunsTo step ok s u := by
  induction h₂ with
  | refl => exact h₁
  | tail _ hok hstep ih => exact ih.tail hok hstep

lemma mono (himp : ∀ s a, ok s a → ok' s a) (h : RunsTo step ok s t) :
    RunsTo step ok' s t := by
  induction h with
  | refl => exact .refl
  | tail _ hok hstep ih => exact ih.tail (himp _ _ hok) hstep

lemma reaches (h : RunsTo step ok s t) : Reaches step s t :=
  h.mono fun _ _ _ => trivial

/-- **Invariant rule.** What holds at the start and is kept by every permitted step holds at the
end of every permitted run. -/
theorem invariant {I : S → Prop} (h : RunsTo step ok s t) (hs : I s)
    (hstep : ∀ s a t, I s → ok s a → step s a = some t → I t) : I t := by
  induction h with
  | refl => exact hs
  | tail _ hok ht ih => exact hstep _ _ _ ih hok ht

/-- The invariant rule with a second invariant that is already known on the run. -/
theorem invariant_of {I J : S → Prop} (h : RunsTo step ok s t) (hJ : ∀ {t}, RunsTo step ok s t → J t)
    (hs : I s) (hstep : ∀ s a t, J s → I s → ok s a → step s a = some t → I t) : I t := by
  induction h with
  | refl => exact hs
  | tail hrun hok ht ih => exact hstep _ _ _ (hJ hrun) ih hok ht

/-- What is known on a run may be asked of each of its steps. -/
lemma strengthen {J : S → Prop} (h : RunsTo step ok s t) (hJ : ∀ {t}, RunsTo step ok s t → J t)
    (himp : ∀ s a, J s → ok s a → ok' s a) : RunsTo step ok' s t := by
  induction h with
  | refl => exact .refl
  | tail hrun hok hstep ih => exact ih.tail (himp _ _ (hJ hrun) hok) hstep

/-- **Simulation rule.** If each permitted step is matched by a run that keeps a relation, so is each
permitted run. -/
theorem simulate_rel {T B : Type*} {step' : T → B → Option T} {R : S → T → Prop} {s' : T}
    (h : RunsTo step ok s t) (hs : R s s')
    (hstep : ∀ s a t s', R s s' → ok s a → step s a = some t → ∃ t', Reaches step' s' t' ∧ R t t') :
    ∃ t', Reaches step' s' t' ∧ R t t' := by
  induction h with
  | refl => exact ⟨s', .refl, hs⟩
  | tail _ hok ht ih =>
    obtain ⟨t', hrun, hrel⟩ := ih
    obtain ⟨u', hrest, hrel'⟩ := hstep _ _ _ _ hrel hok ht
    exact ⟨u', hrun.trans hrest, hrel'⟩

/-- The simulation rule with a function of the state. -/
theorem simulate {T B : Type*} {step' : T → B → Option T} {f : S → T}
    (h : RunsTo step ok s t)
    (hstep : ∀ s a t, ok s a → step s a = some t → Reaches step' (f s) (f t)) :
    Reaches step' (f s) (f t) := by
  obtain ⟨t', hrun, rfl⟩ := h.simulate_rel (R := fun s s' => s' = f s) rfl
    fun s a t s' hs hok ht => ⟨f t, hs ▸ hstep s a t hok ht, rfl⟩
  exact hrun

end RunsTo

/-! ## Executing a given list of labels -/

/-- The state after the labels `as`, or `none` if one of them is not possible or not permitted. -/
def execute (step : S → A → Option S) (permitted : S → A → Bool) : S → List A → Option S
  | s, [] => some s
  | s, a :: as =>
    if permitted s a then (step s a).bind fun t => execute step permitted t as else none

/-- The state after the labels `as`, whatever they are. -/
def executeAll (step : S → A → Option S) : S → List A → Option S :=
  execute step fun _ _ => true

/-- What `execute` computes is the end of a permitted run. -/
theorem RunsTo.of_execute {permitted : S → A → Bool} (as : List A)
    (hok : ∀ s a, permitted s a = true → ok s a)
    (h : execute step permitted s as = some t) : RunsTo step ok s t := by
  induction as generalizing s with
  | nil =>
    obtain rfl : s = t := by simpa [execute] using h
    exact .refl
  | cons a as ih =>
    simp only [execute] at h
    split at h
    · obtain ⟨u, hu, hrest⟩ := Option.bind_eq_some_iff.mp h
      exact (RunsTo.refl.tail (hok s a ‹_›) hu).trans (ih hrest)
    · cases h

lemma RunsTo.of_executeAll (as : List A) (h : executeAll step s as = some t) :
    Reaches step s t :=
  RunsTo.of_execute as (fun _ _ _ => trivial) h

end UnifyPrototype.Utils
