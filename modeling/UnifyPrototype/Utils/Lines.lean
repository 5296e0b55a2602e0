import Mathlib.Data.List.Basic
import Mathlib.Tactic.Common

/-!
# Texts made of lines

What can be read back from a text of which every line ends in a fixed character `x`: the first line,
a listing with a label before each line, and a block of lines that a header line ends.
-/

namespace UnifyPrototype.Utils

variable {α : Type*} {x : α} {l l' r r' h m m' mark : List α} {xs ys : List (List α)}

/-- A line ends at the first `x`. -/
lemma line_append_inj (hl : x ∉ l) (hl' : x ∉ l') (heq : l ++ x :: r = l' ++ x :: r') :
    l = l' ∧ r = r' := by
  induction l generalizing l' with
  | nil =>
    cases l' with
    | nil => exact ⟨rfl, List.tail_eq_of_cons_eq heq⟩
    | cons a l' =>
      have ha : x = a := List.head_eq_of_cons_eq heq
      exact absurd (ha ▸ List.mem_cons_self ..) hl'
  | cons a l ih =>
    cases l' with
    | nil =>
      have ha : a = x := List.head_eq_of_cons_eq heq
      exact absurd (ha ▸ List.mem_cons_self ..) hl
    | cons b l' =>
      have hab : a = b := List.head_eq_of_cons_eq heq
      have hrest := ih (fun hx => hl (List.mem_cons_of_mem _ hx))
        (fun hx => hl' (List.mem_cons_of_mem _ hx)) (List.tail_eq_of_cons_eq heq)
      rw [hab, hrest.1]
      exact ⟨rfl, hrest.2⟩

/-! ## Listings -/

/-- The lines `xs`, each after its label, labelled from `n` on. -/
def listing (label : ℕ → List α) (x : α) (n : ℕ) (xs : List (List α)) : List α :=
  ((xs.zipIdx n).map fun (line, k) => label k ++ line ++ [x]).flatten

variable {label : ℕ → List α} {n : ℕ}

lemma listing_cons : listing label x n (l :: xs) = label n ++ (l ++ x :: listing label x (n + 1) xs) := by
  simp [listing, List.zipIdx_cons]

/-- A listing ends where the next line has no label. -/
lemma listing_append_inj (hmark : ∀ k, mark <+: label k) (hr : ¬ mark <+: r) (hr' : ¬ mark <+: r')
    (hxs : ∀ l ∈ xs, x ∉ l) (hys : ∀ l ∈ ys, x ∉ l)
    (heq : listing label x n xs ++ r = listing label x n ys ++ r') : xs = ys ∧ r = r' := by
  have hmarked : ∀ {l : List α} {zs : List (List α)} {n : ℕ},
      mark <+: listing label x n (l :: zs) := fun {_ _ n} => by
    rw [listing_cons]
    exact (hmark n).trans (List.prefix_append ..)
  induction xs generalizing ys n with
  | nil =>
    cases ys with
    | nil => exact ⟨rfl, heq⟩
    | cons b ys =>
      have hr : mark <+: r := by
        rw [show r = _ from heq]
        exact hmarked.trans (List.prefix_append ..)
      contradiction
  | cons a xs ih =>
    cases ys with
    | nil =>
      have hr' : mark <+: r' := by
        rw [show r' = _ from heq.symm]
        exact hmarked.trans (List.prefix_append ..)
      contradiction
    | cons b ys =>
      simp only [listing_cons, List.append_assoc, List.append_cancel_left_eq, List.cons_append] at heq
      obtain ⟨rfl, hrest⟩ := line_append_inj (hxs a (List.mem_cons_self ..))
        (hys b (List.mem_cons_self ..)) heq
      obtain ⟨rfl, rfl⟩ := ih (fun l hl => hxs l (List.mem_cons_of_mem _ hl))
        (fun l hl => hys l (List.mem_cons_of_mem _ hl)) hrest
      exact ⟨rfl, rfl⟩

/-! ## Blocks of lines -/

/-- `h` is one of the lines of `m`. -/
def HasLine (x : α) (h m : List α) : Prop :=
  x :: (h ++ [x]) <:+: x :: m

instance [DecidableEq α] : Decidable (HasLine x h m) :=
  inferInstanceAs (Decidable (_ <:+: _))

/-- Nothing, or lines of which the last one ends in `x`. -/
def Closed (x : α) (m : List α) : Prop :=
  m = [] ∨ ∃ a, m = a ++ [x]

/-- What begins with the header line begins with it as a block of its own, if it is closed. -/
lemma header_prefix {a b : List α} (hh : x ∉ h) (hb : b = [] ∨ h ++ [x] <+: b)
    (ha : a ++ [x] <+: b) : h ++ [x] <+: a ++ [x] := by
  have hb : h ++ [x] <+: b := by
    cases hb with
    | inl hb =>
      rw [hb] at ha
      exact absurd (List.prefix_nil.mp ha) (by simp)
    | inr hb => exact hb
  cases List.prefix_or_prefix_of_prefix hb ha with
  | inl hprefix => exact hprefix
  | inr hprefix =>
    cases List.prefix_concat_iff.mp hprefix with
    | inl heq => exact ⟨[], (List.append_nil _).trans heq.symm⟩
    | inr hshort => exact absurd (hshort.subset (by simp)) hh

/-- A block does not go on into the header line of another one. -/
lemma block_append_eq (hh : x ∉ h) (hm : Closed x m) (hne : m ≠ []) {a : List α}
    (hclosed : Closed x (m ++ a)) (hno : ¬ HasLine x h (m ++ a)) (hr : r = [] ∨ h ++ [x] <+: r)
    (hra : a <+: r) : a = [] := by
  by_contra hane
  obtain ⟨m, rfl⟩ := hm.resolve_left hne
  obtain ⟨a, rfl⟩ : ∃ a', a = a' ++ [x] := by
    obtain hnil | ⟨c, hc⟩ := hclosed
    · exact absurd (List.append_eq_nil_iff.mp hnil).2 hane
    · have hlast : a.getLast? = some x := by
        rw [← List.getLast?_append_of_ne_nil _ hane, hc]
        exact List.getLast?_concat
      exact ⟨a.dropLast, (List.dropLast_append_getLast? _ hlast).symm⟩
  obtain ⟨v, hv⟩ := header_prefix hh hr hra
  apply hno
  refine ⟨x :: m, v, ?_⟩
  rw [← hv]
  simp

/-- A closed block ends at the header line, which is none of its own lines. -/
lemma block_append_inj (hh : x ∉ h) (hm : Closed x m) (hm' : Closed x m') (hne : m ≠ [])
    (hne' : m' ≠ []) (hno : ¬ HasLine x h m) (hno' : ¬ HasLine x h m')
    (hr : r = [] ∨ h ++ [x] <+: r) (hr' : r' = [] ∨ h ++ [x] <+: r')
    (heq : m ++ r = m' ++ r') : m = m' ∧ r = r' := by
  cases List.append_eq_append_iff.mp heq with
  | inl hlonger =>
    obtain ⟨a, rfl, rfl⟩ := hlonger
    have ha := block_append_eq hh hm hne hm' hno' hr (List.prefix_append ..)
    simp [ha]
  | inr hlonger =>
    obtain ⟨a, rfl, rfl⟩ := hlonger
    have ha := block_append_eq hh hm' hne' hm hno hr' (List.prefix_append ..)
    simp [ha]

end UnifyPrototype.Utils
