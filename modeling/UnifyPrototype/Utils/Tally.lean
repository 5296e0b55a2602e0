import Mathlib.Algebra.BigOperators.Group.List.Basic
import Mathlib.Algebra.GroupWithZero.Nat
import Mathlib.Algebra.Order.BigOperators.Group.List
import Mathlib.Tactic.Common

/-!
# Tallies

Mutual exclusion, reference counts and "exactly once" are all statements about how many members
of a list of threads are at some program point. `tally w l` adds up a weight over a list; the
lemmas here say how it moves when one member changes or a new one is appended, so that an
invariant of the whole list follows from one linear fact about the member that moved.
-/

namespace UnifyPrototype.Utils

variable {α β : Type*}

/-- The sum of the weights of the members of `l`. -/
def tally (w : α → ℕ) (l : List α) : ℕ :=
  (l.map w).sum

@[simp] lemma tally_nil (w : α → ℕ) : tally w [] = 0 := rfl

@[simp] lemma tally_cons (w : α → ℕ) (a : α) (l : List α) :
    tally w (a :: l) = w a + tally w l := by
  simp [tally]

@[simp] lemma tally_append (w : α → ℕ) (l l' : List α) :
    tally w (l ++ l') = tally w l + tally w l' := by
  simp [tally]

@[simp] lemma tally_map (w : β → ℕ) (f : α → β) (l : List α) :
    tally w (l.map f) = tally (fun a => w (f a)) l := by
  simp [tally, Function.comp_def]

@[simp] lemma tally_zero (l : List α) : tally (fun _ => 0) l = 0 := by
  simp [tally]

/-- Replacing one member moves the tally by the difference of the two weights. -/
lemma tally_set (w : α → ℕ) {l : List α} {i : ℕ} {a : α} (b : α) (h : l[i]? = some a) :
    tally w (l.set i b) + w a = tally w l + w b := by
  induction l generalizing i with
  | nil => simp at h
  | cons c l ih =>
    cases i with
    | zero =>
      obtain rfl : c = a := by simpa using h
      simp only [List.set_cons_zero, tally_cons]
      omega
    | succ i =>
      have hl := ih (i := i) (by simpa using h)
      simp only [List.set_cons_succ, tally_cons]
      omega

/-- One member weighs at most as much as all of them. -/
lemma le_tally (w : α → ℕ) {l : List α} {i : ℕ} {a : α} (h : l[i]? = some a) :
    w a ≤ tally w l := by
  induction l generalizing i with
  | nil => simp at h
  | cons c l ih =>
    cases i with
    | zero =>
      obtain rfl : c = a := by simpa using h
      simp
    | succ i =>
      have hl := ih (i := i) (by simpa using h)
      simp only [tally_cons]
      omega

lemma le_tally_of_mem (w : α → ℕ) {l : List α} {a : α} (h : a ∈ l) : w a ≤ tally w l := by
  obtain ⟨i, hi⟩ := List.getElem?_of_mem h
  exact le_tally w hi

/-- Two members at different places together weigh at most as much as all of them. -/
lemma add_le_tally (w : α → ℕ) {l : List α} {i j : ℕ} {a b : α} (hij : i ≠ j)
    (hi : l[i]? = some a) (hj : l[j]? = some b) : w a + w b ≤ tally w l := by
  induction l generalizing i j with
  | nil => simp at hi
  | cons c l ih =>
    cases i with
    | zero =>
      obtain rfl : c = a := by simpa using hi
      cases j with
      | zero => exact absurd rfl hij
      | succ j =>
        have hb := le_tally w (i := j) (a := b) (l := l) (by simpa using hj)
        simp only [tally_cons]
        omega
    | succ i =>
      cases j with
      | zero =>
        obtain rfl : c = b := by simpa using hj
        have ha := le_tally w (l := l) (i := i) (a := a) (by simpa using hi)
        simp only [tally_cons]
        omega
      | succ j =>
        have hl := ih (i := i) (j := j) (by omega) (by simpa using hi) (by simpa using hj)
        simp only [tally_cons]
        omega

lemma tally_eq_zero {w : α → ℕ} {l : List α} : tally w l = 0 ↔ ∀ a ∈ l, w a = 0 := by
  induction l with
  | nil => simp
  | cons c l ih => simp [ih]

lemma tally_le_tally {w v : α → ℕ} {l : List α} (h : ∀ a ∈ l, w a ≤ v a) :
    tally w l ≤ tally v l := by
  induction l with
  | nil => simp
  | cons c l ih =>
    have hc := h c (by simp)
    have hl := ih fun a ha => h a (by simp [ha])
    simp only [tally_cons]
    omega

lemma tally_congr {w v : α → ℕ} {l : List α} (h : ∀ a ∈ l, w a = v a) :
    tally w l = tally v l :=
  le_antisymm (tally_le_tally fun a ha => (h a ha).le) (tally_le_tally fun a ha => (h a ha).ge)

lemma tally_add (w v : α → ℕ) (l : List α) :
    tally (fun a => w a + v a) l = tally w l + tally v l := by
  induction l with
  | nil => simp
  | cons c l ih => simp only [tally_cons, ih]; omega

/-- Changing a function at one member of a list without duplicates. -/
lemma tally_update [DecidableEq α] (w : α → β → ℕ) (f : α → β) (b : β) {l : List α} {a : α}
    (hl : l.Nodup) (ha : a ∈ l) :
    tally (fun x => w x (Function.update f a b x)) l + w a (f a)
      = tally (fun x => w x (f x)) l + w a b := by
  induction l with
  | nil => cases ha
  | cons c l ih =>
    obtain ⟨hc, hl⟩ := List.nodup_cons.mp hl
    rcases List.mem_cons.mp ha with rfl | ha
    · have hrest : tally (fun x => w x (Function.update f a b x)) l = tally (fun x => w x (f x)) l :=
        tally_congr fun x hx => by rw [Function.update_of_ne (ne_of_mem_of_not_mem hx hc)]
      simp only [tally_cons, Function.update_self, hrest]
      omega
    · have hne : c ≠ a := fun h => hc (h ▸ ha)
      have := ih hl ha
      simp only [tally_cons, Function.update_of_ne hne]
      omega

/-- Changing a function elsewhere. -/
lemma tally_update_of_notMem [DecidableEq α] (w : α → β → ℕ) (f : α → β) (b : β) {l : List α}
    {a : α} (ha : a ∉ l) :
    tally (fun x => w x (Function.update f a b x)) l = tally (fun x => w x (f x)) l :=
  tally_congr fun x hx => by rw [Function.update_of_ne (ne_of_mem_of_not_mem hx ha)]

/-- Only one member of a list without duplicates weighs anything. -/
lemma tally_single [DecidableEq α] (n : ℕ) {l : List α} {a : α} (hl : l.Nodup) (ha : a ∈ l) :
    tally (fun x => if x = a then n else 0) l = n := by
  induction l with
  | nil => cases ha
  | cons c l ih =>
    obtain ⟨hc, hl⟩ := List.nodup_cons.mp hl
    rw [tally_cons]
    rcases List.mem_cons.mp ha with rfl | ha
    · have hrest : tally (fun x => if x = a then n else 0) l = 0 :=
        tally_eq_zero.mpr fun x hx => if_neg (ne_of_mem_of_not_mem hx hc)
      rw [if_pos rfl, hrest, Nat.add_zero]
    · rw [if_neg (ne_of_mem_of_not_mem ha hc).symm, ih hl ha, Nat.zero_add]

lemma tally_perm (w : α → ℕ) {l l' : List α} (h : l.Perm l') : tally w l = tally w l' :=
  (h.map w).sum_eq

/-- A list that has everything at most as often as another one. -/
lemma tally_le_of_count [DecidableEq α] (w : α → ℕ) {l l' : List α}
    (h : ∀ a, l.count a ≤ l'.count a) : tally w l ≤ tally w l' := by
  obtain ⟨l₁, hperm, hsub⟩ := List.subperm_ext_iff.mpr fun a _ => h a
  obtain ⟨rest, hrest⟩ := hsub.exists_perm_append
  rw [← tally_perm w hperm, tally_perm w hrest, tally_append]
  exact Nat.le_add_right _ _

lemma tally_flatMap (w : β → ℕ) (f : α → List β) (l : List α) :
    tally w (l.flatMap f) = tally (fun a => tally w (f a)) l := by
  induction l with
  | nil => rfl
  | cons c l ih => simp [ih]

/-- Adding up by rows and by columns. -/
lemma tally_comm (w : α → β → ℕ) (l : List α) (l' : List β) :
    tally (fun a => tally (w a) l') l = tally (fun b => tally (fun a => w a b) l) l' := by
  induction l with
  | nil => simp
  | cons c l ih => simp only [tally_cons, ih, tally_add]

/-- The members of a list weigh at least as much as what is assigned to their places. -/
lemma tally_range_le {w : α → ℕ} {g : ℕ → ℕ} {l : List α}
    (h : ∀ i a, l[i]? = some a → g i ≤ w a) : tally g (List.range l.length) ≤ tally w l := by
  induction l generalizing g with
  | nil => simp
  | cons c l ih =>
    have hc := h 0 c rfl
    have hl := ih (g := fun i => g (i + 1)) fun i a hi => h (i + 1) a (by simpa using hi)
    rw [List.length_cons, List.range_succ_eq_map, tally_cons, tally_map, tally_cons]
    exact Nat.add_le_add hc hl

lemma tally_le_length {w : α → ℕ} {l : List α} (h : ∀ a ∈ l, w a ≤ 1) : tally w l ≤ l.length := by
  induction l with
  | nil => simp
  | cons c l ih =>
    have hc := h c (by simp)
    have hl := ih fun a ha => h a (by simp [ha])
    rw [tally_cons, List.length_cons]
    omega

/-- The length of a concatenation is a tally. -/
lemma length_flatMap_eq_tally (f : α → List β) (l : List α) :
    (l.flatMap f).length = tally (fun a => (f a).length) l := by
  induction l with
  | nil => rfl
  | cons c l ih => simp [ih]

/-- How often a concatenation has a member is a tally. -/
lemma count_flatMap_eq_tally [DecidableEq β] (f : α → List β) (b : β) (l : List α) :
    (l.flatMap f).count b = tally (fun a => (f a).count b) l := by
  induction l with
  | nil => rfl
  | cons c l ih => simp [ih]

end UnifyPrototype.Utils
