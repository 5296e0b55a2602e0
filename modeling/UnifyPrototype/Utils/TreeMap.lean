import Mathlib.Data.List.MinMax
import Mathlib.Data.List.Sort
import Mathlib.Data.Prod.Lex
import Mathlib.Tactic.Common

/-!
# Loops over sorted maps

A loop over a map sees the keys in their order. Here are the two loops that build another map: one
that writes its entries into a map, and one that collects in each entry what it makes of a group of
keys.
-/

namespace UnifyPrototype.Utils

open Std (TreeMap TransCmp LawfulEqCmp)

section
variable {α β γ : Type} {cmp : α → α → Ordering} [TransCmp cmp]

/-! ## Sorted lists of entries -/

/-- Where the members with `p` come first, the list is those members and then the others. -/
lemma filter_append_filter_not {R : β → β → Prop} {p : β → Bool} {l : List β} (hl : l.Pairwise R)
    (hp : ∀ a b, R a b → p b = true → p a = true) :
    l = l.filter p ++ l.filter (fun b => !p b) := by
  induction l with
  | nil => rfl
  | cons a l ih =>
    obtain ⟨hfirst, hrest⟩ := List.pairwise_cons.mp hl
    have hih := ih hrest
    by_cases ha : p a = true
    · rw [List.filter_cons_of_pos ha, List.filter_cons_of_neg (by simp [ha]), List.cons_append, ← hih]
    · -- nothing after `a` has the property either
      have hnone : l.filter p = [] := by
        refine List.filter_eq_nil_iff.mpr fun b hb hpb => ?_
        exact ha (hp a b (hfirst b hb) hpb)
      rw [hnone, List.nil_append] at hih
      rw [List.filter_cons_of_neg ha, List.filter_cons_of_pos (by simp [ha]), hnone, List.nil_append,
        ← hih]

lemma pairwise_toList_filter (t : TreeMap α β cmp) (p : α × β → Bool) :
    (t.toList.filter p).Pairwise fun a b => cmp a.1 b.1 = .lt :=
  TreeMap.ordered_keys_toList.filter p

/-- In a sorted list the one that is found first is the smaller one. -/
lemma isLE_of_idxOf_le [DecidableEq β] {f : β → α} {l : List β}
    (hl : l.Pairwise fun a b => cmp (f a) (f b) = .lt) {a b : β} (ha : a ∈ l) (hb : b ∈ l)
    (hle : l.idxOf a ≤ l.idxOf b) : (cmp (f a) (f b)).isLE = true := by
  rcases Nat.lt_or_eq_of_le hle with hlt | heq
  · have hpairwise := List.pairwise_iff_getElem.mp hl _ _ (List.idxOf_lt_length_of_mem ha)
      (List.idxOf_lt_length_of_mem hb) hlt
    rw [List.getElem_idxOf, List.getElem_idxOf] at hpairwise
    rw [hpairwise]
    rfl
  · obtain rfl := (List.idxOf_inj ha).mp heq
    have hself : cmp (f a) (f a) = .eq := Std.ReflCmp.compare_self
    rw [hself]
    rfl

lemma ne_of_cmp_lt {a b : α} (hlt : cmp a b = .lt) : a ≠ b := by
  rintro rfl
  have hself : cmp a a = .eq := Std.ReflCmp.compare_self
  rw [hself] at hlt
  cases hlt

variable [LawfulEqCmp cmp]

/-- Maps that agree on the keys with `p` have the same entries of these keys in the same order. -/
lemma toList_filter_congr {t t' : TreeMap α β cmp} (p : α → Bool)
    (h : ∀ k, p k = true → t[k]? = t'[k]?) :
    t.toList.filter (fun e => p e.1) = t'.toList.filter (fun e => p e.1) := by
  have hnodup : ∀ u : TreeMap α β cmp, (u.toList.filter fun e => p e.1).Nodup := by
    intro u
    refine (pairwise_toList_filter u _).imp ?_
    rintro a b hlt rfl
    exact ne_of_cmp_lt hlt rfl
  have hmem : ∀ e, e ∈ t.toList.filter (fun e => p e.1) ↔ e ∈ t'.toList.filter (fun e => p e.1) := by
    rintro ⟨k, v⟩
    simp only [List.mem_filter, TreeMap.mem_toList_iff_getElem?_eq_some]
    constructor
    · rintro ⟨hk, hp⟩
      exact ⟨(h k hp).symm.trans hk, hp⟩
    · rintro ⟨hk, hp⟩
      exact ⟨(h k hp).trans hk, hp⟩
  refine List.Perm.eq_of_pairwise ?_ (pairwise_toList_filter t _) (pairwise_toList_filter t' _)
    ((List.perm_ext_iff_of_nodup (hnodup t) (hnodup t')).mpr hmem)
  intro a b _ _ hlt hgt
  have hswap : cmp a.1 b.1 = (cmp b.1 a.1).swap := Std.OrientedCmp.eq_swap
  rw [hswap, hgt] at hlt
  cases hlt

/-! ## Writing entries -/

lemma getElem?_foldl_insert_list {l : List (α × β)}
    (hl : l.Pairwise fun a b => cmp a.1 b.1 = .lt) (f : β → γ) (m : TreeMap α γ cmp) (k : α) :
    (∀ v, (k, v) ∈ l → (l.foldl (fun m e => m.insert e.1 (f e.2)) m)[k]? = some (f v)) ∧
      ((∀ e ∈ l, e.1 ≠ k) → (l.foldl (fun m e => m.insert e.1 (f e.2)) m)[k]? = m[k]?) := by
  induction l generalizing m with
  | nil => exact ⟨fun v hv => absurd hv List.not_mem_nil, fun _ => rfl⟩
  | cons e l ih =>
    obtain ⟨hfirst, hrest⟩ := List.pairwise_cons.mp hl
    obtain ⟨hin, hout⟩ := ih hrest (m.insert e.1 (f e.2))
    refine ⟨fun v hv => ?_, fun hne => ?_⟩
    · rcases List.mem_cons.mp hv with rfl | hv
      · -- it is not written again
        have hlater : ∀ e ∈ l, e.1 ≠ k := by
          rintro e' he' rfl
          exact ne_of_cmp_lt (hfirst e' he') rfl
        rw [List.foldl_cons, hout hlater, TreeMap.getElem?_insert_self]
      · exact hin v hv
    · have hkey : cmp e.1 k ≠ .eq := by
        rw [Ne, LawfulEqCmp.compare_eq_iff_eq]
        exact hne e List.mem_cons_self
      rw [List.foldl_cons, hout fun e he => hne e (List.mem_cons_of_mem _ he),
        TreeMap.getElem?_insert, if_neg hkey]

/-- **A loop that writes the entries of one map into another one.** -/
theorem getElem?_foldl_insert (t : TreeMap α β cmp) (f : β → γ) (m : TreeMap α γ cmp) (k : α) :
    (t.foldl (fun m k v => m.insert k (f v)) m)[k]? = (t[k]?.map f).or m[k]? := by
  obtain ⟨hin, hout⟩ := getElem?_foldl_insert_list (TreeMap.ordered_keys_toList (t := t)) f m k
  rw [TreeMap.foldl_eq_foldl_toList]
  cases hk : t[k]? with
  | some v => exact hin v (TreeMap.mem_toList_iff_getElem?_eq_some.mpr hk)
  | none =>
    refine hout ?_
    rintro e he rfl
    have hsome := TreeMap.mem_toList_iff_getElem?_eq_some.mp he
    rw [hk] at hsome
    cases hsome

/-! ## Grouping -/

/-- **A loop that collects in each entry what it makes of the keys of one group.** -/
theorem getElem?_foldl_group (group : α → α) (d : γ) (c : γ → α × β → γ) (l : List (α × β))
    (m : TreeMap α γ cmp) (k : α) :
    (l.foldl (fun m e => m.insert (group e.1) (c (m.getD (group e.1) d) e)) m)[k]?
      = (l.filter fun e => cmp (group e.1) k = .eq).foldl (fun x e => some (c (x.getD d) e))
          m[k]? := by
  induction l generalizing m with
  | nil => rfl
  | cons e l ih =>
    rw [List.foldl_cons, ih, TreeMap.getElem?_insert]
    by_cases hgroup : cmp (group e.1) k = .eq
    · obtain rfl := LawfulEqCmp.compare_eq_iff_eq.mp hgroup
      rw [if_pos hgroup, List.filter_cons_of_pos (by simp), List.foldl_cons,
        TreeMap.getD_eq_getD_getElem?]
    · rw [if_neg hgroup, List.filter_cons_of_neg (by simp [hgroup])]

end

end UnifyPrototype.Utils
