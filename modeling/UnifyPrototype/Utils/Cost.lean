import UnifyPrototype.Utils.Runs
import UnifyPrototype.Utils.Tally

/-!
# What a run costs

A bound on the work of a concurrent program cannot be read off one of its parties, since what one
does may be work that another one has caused. A potential is what was paid for and is not spent. When
no step spends more than it has, no run does, in any interleaving.
-/

namespace UnifyPrototype.Utils

variable {S A : Type*} {step : S → A → Option S} {permitted : S → A → Bool} {s t : S}

/-- The costs of the steps of a run, added up. -/
def totalCost (step : S → A → Option S) (cost : S → A → ℕ) : S → List A → ℕ
  | _, [] => 0
  | s, a :: as => cost s a + ((step s a).elim 0 fun t => totalCost step cost t as)

/-- **Potential rule.** If each permitted step keeps the invariant and spends no more than it earns and
takes from the potential, then what a whole run spends is covered by what it earns and by the
potential at its start. -/
theorem totalCost_le {I : S → Prop} {spend : S → A → ℕ} {earn : A → ℕ} {potential : S → ℕ}
    (as : List A) (h : execute step permitted s as = some t) (hs : I s)
    (hstep : ∀ s a t, I s → permitted s a = true → step s a = some t →
      I t ∧ spend s a + potential t ≤ potential s + earn a) :
    totalCost step spend s as + potential t ≤ potential s + tally earn as := by
  induction as generalizing s with
  | nil =>
    obtain rfl := Option.some.inj h
    simp [totalCost]
  | cons a as ih =>
    simp only [execute] at h
    split at h
    next hpermitted =>
      obtain ⟨u, hu, hrest⟩ := Option.bind_eq_some_iff.mp h
      obtain ⟨hI, hle⟩ := hstep s a u hs hpermitted hu
      have hlater := ih hrest hI
      simp only [totalCost, hu, Option.elim_some, tally_cons]
      omega
    next => cases h

/-! ## Tallies of a cost -/

lemma tally_mul (c : ℕ) (w : A → ℕ) (l : List A) : tally (fun a => c * w a) l = c * tally w l := by
  induction l with
  | nil => rfl
  | cons a l ih => rw [tally_cons, tally_cons, ih, Nat.mul_add]

/-- Not everybody has one. -/
lemma tally_lt_length {w : A → ℕ} {l : List A} {a : A} (h : ∀ a ∈ l, w a ≤ 1) (ha : a ∈ l)
    (hzero : w a = 0) : tally w l < l.length := by
  obtain ⟨l₁, l₂, rfl⟩ := List.append_of_mem ha
  have h₁ := tally_le_length fun b hb => h b (List.mem_append_left _ hb)
  have h₂ := tally_le_length fun b hb => h b (List.mem_append_right _ (List.mem_cons_of_mem _ hb))
  rw [tally_append, tally_cons, hzero, List.length_append, List.length_cons]
  omega

end UnifyPrototype.Utils
