import Mathlib.Data.List.Nodup
import Mathlib.Tactic.Common

/-!
# Linked lists in a heap

A cell of the heap says which cell comes after it. A list of cells that follow each other up to an
end is determined by where it begins, and so it has no repetition: a cell that came twice would
be followed by two lists of different lengths.
-/

namespace UnifyPrototype.Utils

variable {A : Type*} {next next' : A → Option (Option A)} {a b : A} {o : Option A} {l l' : List A}

/-- From `o` on, the cells of `l` follow each other and the last one ends the list. `next a` is what
comes after the cell `a`; it is `none` if there is no such cell. -/
inductive Linked (next : A → Option (Option A)) : Option A → List A → Prop
  | nil : Linked next none []
  | cons {a : A} {o : Option A} {l : List A} :
      next a = some o → Linked next o l → Linked next (some a) (a :: l)

/-- The cells that one comes to from `o` on. -/
inductive Follows (next : A → Option (Option A)) (o : Option A) : A → Prop
  | head {a : A} : o = some a → Follows next o a
  | next {a b : A} : Follows next o a → next a = some (some b) → Follows next o b

/-- What one comes to from the second cell on, one comes to from the first one on. -/
lemma Follows.of_next (ha : next a = some o) (h : Follows next o b) : Follows next (some a) b := by
  induction h with
  | head ho => exact .next (.head rfl) (ho ▸ ha)
  | next _ hb ih => exact ih.next hb

namespace Linked

/-- Where a list begins determines it. -/
lemma unique (h : Linked next o l) (h' : Linked next o l') : l = l' := by
  induction h generalizing l' with
  | nil =>
    cases h'
    rfl
  | cons ha _ ih =>
    cases h' with
    | cons ha' hl' =>
      obtain rfl := Option.some.inj (ha.symm.trans ha')
      rw [ih hl']

/-- The members of a list are cells of the heap. -/
lemma exists_next (h : Linked next o l) (ha : a ∈ l) : ∃ o', next a = some o' := by
  induction h with
  | nil => cases ha
  | cons hb _ ih =>
    rcases List.mem_cons.mp ha with rfl | ha
    · exact ⟨_, hb⟩
    · exact ih ha

/-- **Frame.** A list does not see what changes in other cells. -/
lemma congr (h : Linked next o l) (hsame : ∀ a ∈ l, next' a = next a) : Linked next' o l := by
  induction h with
  | nil => exact .nil
  | cons hb _ ih =>
    refine .cons ((hsame _ List.mem_cons_self).trans hb) (ih fun a ha => ?_)
    exact hsame a (List.mem_cons_of_mem _ ha)

/-- From a member on, the rest of the list follows. -/
lemma exists_suffix (h : Linked next o l) (ha : a ∈ l) :
    ∃ l', Linked next (some a) l' ∧ l' <:+ l := by
  induction h with
  | nil => cases ha
  | cons hb hl ih =>
    rcases List.mem_cons.mp ha with rfl | ha
    · exact ⟨_, .cons hb hl, List.suffix_rfl⟩
    · obtain ⟨l', hl', hsuffix⟩ := ih ha
      exact ⟨l', hl', hsuffix.trans (List.suffix_cons _ _)⟩

/-- A linked list has no repetition. -/
lemma nodup (h : Linked next o l) : l.Nodup := by
  induction h with
  | nil => exact List.nodup_nil
  | @cons a o l ha hl ih =>
    refine List.nodup_cons.mpr ⟨fun hmem => ?_, ih⟩
    obtain ⟨l', hl', hsuffix⟩ := hl.exists_suffix hmem
    obtain rfl := hl'.unique (.cons ha hl)
    have hlength := hsuffix.length_le
    rw [List.length_cons] at hlength
    omega

/-- The members of the list are the cells that one comes to. -/
lemma mem_iff (h : Linked next o l) : a ∈ l ↔ Follows next o a := by
  constructor
  · intro ha
    induction h with
    | nil => cases ha
    | cons hb _ ih =>
      rcases List.mem_cons.mp ha with rfl | ha
      · exact .head rfl
      · exact (ih ha).of_next hb
  · intro ha
    induction ha with
    | head ho =>
      subst ho
      cases h
      exact List.mem_cons_self
    | next _ hb ih =>
      obtain ⟨l', hl', hsuffix⟩ := h.exists_suffix ih
      cases hl' with
      | cons hc hrest =>
        obtain rfl := Option.some.inj (hc.symm.trans hb)
        cases hrest
        exact hsuffix.subset (List.mem_cons_of_mem _ List.mem_cons_self)

end Linked

end UnifyPrototype.Utils
