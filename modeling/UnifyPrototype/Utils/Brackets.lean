import UnifyPrototype.Utils.Text

/-!
# Brackets

How deep a text is nested in brackets of one kind. A bracket that closes what the text has not opened
closes what was open before it, so the depth before a text is part of the question.
-/

namespace UnifyPrototype.Utils.Brackets

open Text

variable {A : Type*} [DecidableEq A] {o c : A} {k m n : ℕ} {s t u v a b args : List A}

/-- The depth behind a text for the depth `n` before it, if no bracket closes more than that. -/
def nesting (o c : A) : List A → ℕ → Option ℕ
  | [], n => some n
  | x :: s, n =>
    if x = o then nesting o c s (n + 1)
    else if x = c then
      if n = 0 then none else nesting o c s (n - 1)
    else nesting o c s n

/-- Every bracket of the text has its match in the text. -/
def Balanced (o c : A) (s : List A) : Prop :=
  nesting o c s 0 = some 0

instance (o c : A) (s : List A) : Decidable (Balanced o c s) :=
  inferInstanceAs (Decidable (_ = _))

/-! ## The depth -/

lemma nesting_append (s t : List A) (n : ℕ) :
    nesting o c (s ++ t) n = (nesting o c s n).bind (nesting o c t) := by
  induction s generalizing n with
  | nil => rfl
  | cons x s ih =>
    simp only [List.cons_append, nesting]
    split_ifs
    · exact ih _
    · rfl
    · exact ih _
    · exact ih _

/-- What is open around a text stays open. -/
lemma nesting_add (h : nesting o c s n = some m) (k : ℕ) : nesting o c s (n + k) = some (m + k) := by
  induction s generalizing n with
  | nil =>
    obtain rfl := Option.some.inj h
    rfl
  | cons x s ih =>
    simp only [nesting] at h ⊢
    split_ifs at h with hopening hclosing hzero
    · rw [if_pos hopening, show n + k + 1 = n + 1 + k by omega]
      exact ih h
    · rw [if_neg hopening, if_pos hclosing, if_neg (by omega), show n + k - 1 = n - 1 + k by omega]
      exact ih h
    · rw [if_neg hopening, if_neg hclosing]
      exact ih h

lemma nesting_of_not_mem (ho : o ∉ s) (hc : c ∉ s) (n : ℕ) : nesting o c s n = some n := by
  induction s with
  | nil => rfl
  | cons x s ih =>
    simp only [List.mem_cons, not_or] at ho hc
    rw [nesting, if_neg (Ne.symm ho.1), if_neg (Ne.symm hc.1)]
    exact ih ho.2 hc.2

lemma nesting_opening (s : List A) (n : ℕ) : nesting o c (o :: s) n = nesting o c s (n + 1) := by
  rw [nesting, if_pos rfl]

lemma nesting_closing (hoc : o ≠ c) (s : List A) (n : ℕ) :
    nesting o c (c :: s) n = if n = 0 then none else nesting o c s (n - 1) := by
  rw [nesting, if_neg hoc.symm, if_pos rfl]

/-! ## Balanced texts -/

lemma balanced_of_not_mem (ho : o ∉ s) (hc : c ∉ s) : Balanced o c s :=
  nesting_of_not_mem ho hc 0

lemma Balanced.nesting_eq (h : Balanced o c s) (n : ℕ) : nesting o c s n = some n := by
  have hadd := nesting_add h n
  rwa [Nat.zero_add] at hadd

lemma Balanced.append (hs : Balanced o c s) (ht : Balanced o c t) : Balanced o c (s ++ t) := by
  rw [Balanced, nesting_append, hs, Option.bind_some]
  exact ht

/-- A balanced text in the middle does not count. -/
lemma Balanced.nesting_middle (ht : Balanced o c t) (a b : List A) (n : ℕ) :
    nesting o c (a ++ t ++ b) n = nesting o c (a ++ b) n := by
  rw [nesting_append (a ++ t), nesting_append a t, nesting_append a b, Option.bind_assoc]
  refine congrArg _ (funext fun m => ?_)
  rw [ht.nesting_eq, Option.bind_some]

lemma Balanced.middle_iff (ht : Balanced o c t) (a b : List A) :
    Balanced o c (a ++ t ++ b) ↔ Balanced o c (a ++ b) := by
  rw [Balanced, Balanced, ht.nesting_middle]

/-- Brackets around a balanced text. -/
lemma Balanced.enclosed (hoc : o ≠ c) (h : Balanced o c s) : Balanced o c (o :: s ++ [c]) := by
  rw [Balanced, List.cons_append, nesting_opening, nesting_append, h.nesting_eq, Option.bind_some,
    nesting_closing hoc, if_neg (Nat.succ_ne_zero _)]
  rfl

/-- A bracket that a balanced text opens is closed in it. -/
lemma Balanced.nesting_eq_none (h : Balanced o c (a ++ o :: b)) (t : List A) :
    nesting o c (b ++ t) 0 = none := by
  rw [Balanced, nesting_append, Option.bind_eq_some_iff] at h
  obtain ⟨k, -, hb⟩ := h
  rw [nesting_opening] at hb
  cases hopen : nesting o c b 0 with
  | none => rw [nesting_append, hopen, Option.bind_none]
  | some j =>
    have hadd := nesting_add hopen (k + 1)
    rw [Nat.zero_add, hb] at hadd
    have hzero := Option.some.inj hadd
    omega

/-! ## The match of a bracket -/

/-- Behind a balanced text that a bracket closes nothing of the same depth goes on. -/
lemma prefix_of_nesting (hoc : o ≠ c) (hargs : Balanced o c args) (h : args ++ c :: b = u ++ v)
    (hu : nesting o c u 0 = some k) : u <+: args := by
  rcases Nat.lt_or_ge args.length u.length with hlt | hle
  · obtain ⟨d, rfl, -⟩ := append_cons_split h hlt
    rw [nesting_append, hargs, Option.bind_some, nesting_closing hoc] at hu
    cases hu
  · obtain ⟨d, rfl, -⟩ := append_split h.symm hle
    exact List.prefix_append u d

/-- The match of a bracket is unique. -/
lemma eq_of_closing (hoc : o ≠ c) {args' b' : List A} (hargs : Balanced o c args)
    (hargs' : Balanced o c args') (h : args ++ c :: b = args' ++ c :: b') : args = args' ∧ b = b' := by
  have hle := prefix_of_nesting hoc hargs h hargs'
  have hge := prefix_of_nesting hoc hargs' h.symm hargs
  obtain rfl := hge.eq_of_length_le hle.length_le
  exact ⟨rfl, (List.cons.inj (List.append_cancel_left h)).2⟩

end UnifyPrototype.Utils.Brackets
