import Mathlib.Data.Nat.Init
import Mathlib.Tactic.Common

/-!
# Loops

A `while` loop is given by what one round does: test the condition and, if it holds, run the body.
How many rounds it takes is a number like any other, so that a loop ends is something to prove.
-/

namespace UnifyPrototype.Utils

/-- What one round comes to. -/
inductive Round (S : Type*)
  /-- The condition does not hold. -/
  | leave
  /-- The body has run. -/
  | again (s : S)
  /-- The body does something that the language does not define. -/
  | undefined

variable {S : Type*} {round : S → Round S} {s s' t t' : S} {m n : ℕ}

/-- The state in which the loop is left, if that takes at most `n` runs of the body. -/
def loop (round : S → Round S) : ℕ → S → Option S
  | 0, s =>
    match round s with
    | .leave => some s
    | _ => none
  | n + 1, s =>
    match round s with
    | .leave => some s
    | .again s' => loop round n s'
    | .undefined => none

/-- The loop that begins in `s` ends in `t`. -/
inductive Ends (round : S → Round S) : S → S → Prop
  | leave {s : S} : round s = .leave → Ends round s s
  | again {s s' t : S} : round s = .again s' → Ends round s' t → Ends round s t

lemma loop_of_leave (h : round s = .leave) (n : ℕ) : loop round n s = some s := by
  cases n <;> simp [loop, h]

lemma loop_of_again (h : round s = .again s') (n : ℕ) : loop round (n + 1) s = loop round n s' := by
  simp [loop, h]

/-- More rounds than the loop takes change nothing. -/
lemma loop_mono (hle : m ≤ n) (h : loop round m s = some t) : loop round n s = some t := by
  induction m generalizing n s with
  | zero =>
    cases hround : round s with
    | leave => rwa [loop_of_leave hround] at h ⊢
    | again s' | undefined => simp [loop, hround] at h
  | succ m ih =>
    obtain ⟨n, rfl⟩ := Nat.exists_eq_succ_of_ne_zero (show n ≠ 0 by omega)
    cases hround : round s with
    | leave => rwa [loop_of_leave hround] at h ⊢
    | again s' =>
      rw [loop_of_again hround] at h ⊢
      exact ih (Nat.le_of_succ_le_succ hle) h
    | undefined => simp [loop, hround] at h

/-- What `loop` computes is where the loop ends. -/
theorem Ends.of_loop (h : loop round n s = some t) : Ends round s t := by
  induction n generalizing s with
  | zero =>
    cases hround : round s with
    | leave =>
      rw [loop_of_leave hround] at h
      obtain rfl := Option.some.inj h
      exact .leave hround
    | again s' | undefined => simp [loop, hround] at h
  | succ n ih =>
    cases hround : round s with
    | leave =>
      rw [loop_of_leave hround] at h
      obtain rfl := Option.some.inj h
      exact .leave hround
    | again s' =>
      rw [loop_of_again hround] at h
      exact .again hround (ih h)
    | undefined => simp [loop, hround] at h

/-- A loop that ends does so after some number of rounds. -/
theorem Ends.exists_loop (h : Ends round s t) : ∃ n, loop round n s = some t := by
  induction h with
  | leave hround => exact ⟨0, loop_of_leave hround 0⟩
  | again hround _ ih =>
    obtain ⟨n, hn⟩ := ih
    exact ⟨n + 1, (loop_of_again hround n).trans hn⟩

lemma Ends.unique (h : Ends round s t) (h' : Ends round s t') : t = t' := by
  obtain ⟨m, hm⟩ := h.exists_loop
  obtain ⟨n, hn⟩ := h'.exists_loop
  have hmax := loop_mono (Nat.le_max_left m n) hm
  have hmax' := loop_mono (Nat.le_max_right m n) hn
  exact Option.some.inj (hmax.symm.trans hmax')

/-- The condition does not hold where a loop ends. -/
lemma Ends.left (h : Ends round s t) : round t = .leave := by
  induction h with
  | leave hround => exact hround
  | again _ _ ih => exact ih

/-- **Invariant rule.** What holds at the start and is kept by every round holds at the end. -/
theorem Ends.invariant {I : S → Prop} (h : Ends round s t) (hs : I s)
    (hround : ∀ s s', I s → round s = .again s' → I s') : I t := by
  induction h with
  | leave _ => exact hs
  | again hagain _ ih => exact ih (hround _ _ hs hagain)

/-- **Variant rule.** A loop each of whose rounds lowers a bound ends within the bound. -/
theorem exists_loop {I : ℕ → S → Prop} (hs : I n s)
    (hround : ∀ n s, I n s → round s = .leave ∨ ∃ s' m, round s = .again s' ∧ m < n ∧ I m s') :
    ∃ t, loop round n s = some t := by
  induction n using Nat.strong_induction_on generalizing s with
  | _ n ih =>
    rcases hround n s hs with hleave | ⟨s', m, hagain, hlt, hs'⟩
    · exact ⟨s, loop_of_leave hleave n⟩
    · obtain ⟨t, ht⟩ := ih m hlt hs'
      obtain ⟨n, rfl⟩ := Nat.exists_eq_succ_of_ne_zero (show n ≠ 0 by omega)
      rw [Nat.succ_eq_add_one, loop_of_again hagain]
      exact ⟨t, loop_mono (Nat.le_of_lt_succ hlt) ht⟩

/-- The variant rule for a function of the state. -/
theorem exists_ends {I : S → Prop} (size : S → ℕ) (hs : I s)
    (hround : ∀ s, I s → round s = .leave ∨
      ∃ s', round s = .again s' ∧ size s' < size s ∧ I s') : ∃ t, Ends round s t := by
  obtain ⟨t, ht⟩ := exists_loop (I := fun n s => I s ∧ size s = n) ⟨hs, rfl⟩ (by
    rintro _ s ⟨hs, rfl⟩
    rcases hround s hs with hleave | ⟨s', hagain, hlt, hs'⟩
    · exact .inl hleave
    · exact .inr ⟨s', _, hagain, hlt, hs', rfl⟩)
  exact ⟨t, .of_loop ht⟩

/-- A loop that comes back to the same state does not end. -/
lemma not_ends_of_again (hround : round s = .again s) : ¬ Ends round s t := by
  intro h
  generalize hu : s = u at h
  induction h with
  | leave hleave =>
    subst hu
    cases hround.symm.trans hleave
  | again hagain _ ih =>
    subst hu
    obtain rfl := Round.again.inj (hround.symm.trans hagain)
    exact ih rfl

/-! ## Loops one after the other -/

/-- A result does not change when more rounds are allowed. -/
def Stable {A : Type*} (f : ℕ → Option A) : Prop :=
  ∀ ⦃m n a⦄, m ≤ n → f m = some a → f n = some a

section
variable {A B : Type*} {f : ℕ → Option A} {g : A → ℕ → Option B} {a a' : A}

lemma stable_loop (round : S → Round S) (s : S) : Stable fun n => loop round n s :=
  fun _ _ _ => loop_mono

lemma Stable.map (hf : Stable f) (k : A → B) : Stable fun n => (f n).map k := by
  intro m n b hle hm
  obtain ⟨a, ha, rfl⟩ := Option.map_eq_some_iff.mp hm
  exact Option.map_eq_some_iff.mpr ⟨a, hf hle ha, rfl⟩

lemma Stable.bind (hf : Stable f) (hg : ∀ a, Stable (g a)) : Stable fun n => (f n).bind (g · n) := by
  intro m n b hle hm
  obtain ⟨a, ha, hb⟩ := Option.bind_eq_some_iff.mp hm
  exact Option.bind_eq_some_iff.mpr ⟨a, hf hle ha, hg a hle hb⟩

lemma Stable.unique (hf : Stable f) (h : f m = some a) (h' : f n = some a') : a = a' := by
  have hmax := hf (Nat.le_max_left m n) h
  have hmax' := hf (Nat.le_max_right m n) h'
  exact Option.some.inj (hmax.symm.trans hmax')

/-- Both end if each of them ends. -/
lemma Stable.exists_bind (hf : Stable f) (hg : ∀ a, Stable (g a)) (h : ∃ n, f n = some a)
    (h' : ∃ n b, g a n = some b) : ∃ n b, (f n).bind (g · n) = some b := by
  obtain ⟨m, ha⟩ := h
  obtain ⟨n, b, hb⟩ := h'
  have hmax := hf (Nat.le_max_left m n) ha
  have hmax' := hg a (Nat.le_max_right m n) hb
  exact ⟨max m n, b, Option.bind_eq_some_iff.mpr ⟨a, hmax, hmax'⟩⟩

end

end UnifyPrototype.Utils
