import UnifyPrototype.ProductHandling.Defaults
import UnifyPrototype.Utils.Runs
import Mathlib.Data.List.Dedup

/-!
# The indices of a helper over its whole life

Nothing keeps a program from inserting keys after `finalize`. The entries that `finalize` has added
count for the size of the map, so such a key gets a number beyond the keys that were inserted; but no
number is given twice, and a key that names a process keeps its own.
-/

namespace UnifyPrototype.ProductHandling

open UnifyPrototype.Utils
open Std (TreeMap)

variable {T : Type} [TypeInfo T] {h : ProductResolverIndexHelper T} {key : ProductKey T}

/-! ## The history of a helper -/

/-- The keys with the empty process name that `finalize` adds. -/
def ProductResolverIndexHelper.missing (h : ProductResolverIndexHelper T) : List (ProductKey T) :=
  (h.keyToIndex.keys.map ProductKey.default).dedup.filter fun key => !h.keyToIndex.contains key

/-- A helper. Recorded are the keys that were inserted, each with the size that the map had, and the
keys that `finalize` has added. -/
structure History (T : Type) [TypeInfo T] where
  helper : ProductResolverIndexHelper T := {}
  inserted : List (ProductKey T × ℕ) := []
  added : List (ProductKey T) := []

/-- What a program does with a helper. -/
inductive Label (T : Type)
  | insert (productKey : ProductKey T)
  | finalize (processNameOrder : List StdString)

/-- One call. Where `insert` throws, the helper stays as it is. -/
def History.step (s : History T) : Label T → Option (History T)
  | .insert productKey =>
    match s.helper.insert productKey with
    | .ok helper => some { s with
        helper := helper
        inserted := s.inserted ++ [(productKey, s.helper.keyToIndex.size)] }
    | .error _ => some s
  | .finalize processNameOrder => some { s with
      helper := s.helper.finalize processNameOrder
      added := s.added ++ s.helper.missing }

/-! ## What `finalize` adds -/

/-- What `finalize` adds: defaults of keys that are there, as far as they are not. -/
lemma mem_missing : key ∈ h.missing ↔
    h.keyToIndex.contains key = false ∧ ∃ k, h.keyToIndex.contains k = true ∧ k.default = key := by
  unfold ProductResolverIndexHelper.missing
  rw [List.mem_filter, List.mem_dedup, List.mem_map, Bool.not_eq_true', and_comm]
  exact and_congr_right fun _ => exists_congr fun k =>
    and_congr_left fun _ => TreeMap.mem_keys.trans TreeMap.mem_iff_contains

lemma contains_iff_getElem? : h.keyToIndex.contains key = true ↔
    ∃ index, h.keyToIndex[key]? = some index := by
  rw [TreeMap.contains_eq_isSome_getElem?, Option.isSome_iff_exists]

/-- After `finalize` the keys are the old ones and those that were missing. -/
lemma contains_finalize (processNameOrder : List StdString) :
    (h.finalize processNameOrder).keyToIndex.contains key = true
      ↔ h.keyToIndex.contains key = true ∨ key ∈ h.missing := by
  rw [contains_iff_getElem?, getElem?_finalize_preferred]
  cases hcontains : h.keyToIndex.contains key with
  | true =>
    obtain ⟨index, hindex⟩ := contains_iff_getElem?.mp hcontains
    rw [hindex]
    refine iff_of_true ?_ (.inl rfl)
    cases preferred processNameOrder (h.named key) <;> exact ⟨_, rfl⟩
  | false =>
    have hnone : h.keyToIndex[key]? = none := by
      by_contra hne
      obtain ⟨index, hindex⟩ := Option.ne_none_iff_exists'.mp hne
      rw [contains_iff_getElem?.mpr ⟨index, hindex⟩] at hcontains
      cases hcontains
    rw [hnone, Option.or_none, mem_missing]
    constructor
    · rintro ⟨index, hindex⟩
      obtain ⟨e, he, -⟩ := Option.map_eq_some_iff.mp hindex
      obtain ⟨hentry, hgroup, -⟩ := mem_named.mp (List.argmin_mem (Option.mem_def.mpr he))
      exact .inr ⟨hcontains, e.1, contains_iff_getElem?.mpr ⟨_, hentry⟩, hgroup⟩
    · rintro (habs | ⟨-, k, hk, hgroup⟩)
      · cases habs
      -- the key of the group names a process, for it is another one
      obtain ⟨index, hindex⟩ := contains_iff_getElem?.mp hk
      have hnamed : (k, index) ∈ h.named key := by
        refine mem_named.mpr ⟨hindex, hgroup, fun hempty => ?_⟩
        obtain rfl : k = key := (default_eq_self_iff.mpr hempty).symm.trans hgroup
        rw [hk] at hcontains
        cases hcontains
      cases hbest : preferred processNameOrder (h.named key) with
      | some e => exact ⟨e.2, rfl⟩
      | none =>
        have hnil : h.named key = [] := List.argmin_eq_none.mp hbest
        rw [hnil] at hnamed
        cases hnamed

lemma nodup_keys (h : ProductResolverIndexHelper T) : h.keyToIndex.keys.Nodup :=
  TreeMap.nodup_keys

/-- Each missing key is added once. -/
lemma size_finalize (h : ProductResolverIndexHelper T) (processNameOrder : List StdString) :
    (h.finalize processNameOrder).keyToIndex.size = h.keyToIndex.size + h.missing.length := by
  have hperm : (h.finalize processNameOrder).keyToIndex.keys.Perm (h.keyToIndex.keys ++ h.missing) := by
    refine (List.perm_ext_iff_of_nodup (nodup_keys _) ?_).mpr fun key => ?_
    · refine List.nodup_append.mpr ⟨nodup_keys h, (List.nodup_dedup _).filter _, ?_⟩
      rintro k hk k' hk' rfl
      have hcontains := TreeMap.mem_iff_contains.mp (TreeMap.mem_keys.mp hk)
      rw [(mem_missing.mp hk').1] at hcontains
      cases hcontains
    · rw [List.mem_append, TreeMap.mem_keys, TreeMap.mem_keys, TreeMap.mem_iff_contains,
        TreeMap.mem_iff_contains]
      exact contains_finalize processNameOrder
  rw [← TreeMap.length_keys, ← TreeMap.length_keys, hperm.length_eq, List.length_append]

/-! ## The invariant -/

/-- The keys of the map are those that were inserted or added, each once; the numbers go up, and stay
behind the place of their key by no more than what was added; a key that names a process keeps its
number; and every entry is that of an inserted key of its group. -/
structure History.Kept (s : History T) : Prop where
  contains : ∀ key : ProductKey T, s.helper.keyToIndex.contains key = true
    ↔ key ∈ s.inserted.map Prod.fst ∨ key ∈ s.added
  size : s.helper.keyToIndex.size = s.inserted.length + s.added.length
  place : ∀ (j : ℕ) (key : ProductKey T) (n : ℕ), s.inserted[j]? = some (key, n) → j ≤ n ∧ n ≤ j + s.added.length
  increasing : s.inserted.Pairwise (·.2 < ·.2)
  keeps : ∀ (key : ProductKey T) (n : ℕ), (key, n) ∈ s.inserted → key.processName ≠ [] →
    s.helper.keyToIndex[key]? = some ⟨UInt32.ofNat n⟩
  entries : ∀ (key : ProductKey T) (index : ProductResolverIndex), s.helper.keyToIndex[key]? = some index →
    ∃ k n, (k, n) ∈ s.inserted ∧ k.default = key.default ∧ index = ⟨UInt32.ofNat n⟩

variable {s s' : History T}

/-- Every number is below the size of the map. -/
lemma History.Kept.lt_size (hkept : s.Kept) {k : ProductKey T} {n : ℕ} (hk : (k, n) ∈ s.inserted) :
    n < s.helper.keyToIndex.size := by
  obtain ⟨j, hj⟩ := List.getElem?_of_mem hk
  have hlt := (List.getElem?_eq_some_iff.mp hj).1
  have hle := (hkept.place j k n hj).2
  rw [hkept.size]
  omega

/-- An insertion numbers its key by the size of the map. -/
lemma kept_insert (hkept : s.Kept) {helper : ProductResolverIndexHelper T}
    (hinsert : s.helper.insert key = .ok helper) :
    History.Kept { s with
      helper := helper
      inserted := s.inserted ++ [(key, s.helper.keyToIndex.size)] } := by
  unfold ProductResolverIndexHelper.insert at hinsert
  split at hinsert
  next => cases hinsert
  next hnew =>
    obtain rfl := Except.ok.inj hinsert
    refine ⟨fun key' => ?_, ?_, fun j key' n hj => ?_, ?_, fun key' n hmem hprocess => ?_,
      fun key' index hindex => ?_⟩
    · rw [TreeMap.contains_insert, Bool.or_eq_true, hkept.contains, beq_iff_eq,
        Std.LawfulEqCmp.compare_eq_iff_eq, List.map_append, List.mem_append]
      simp only [List.map_cons, List.map_nil, List.mem_singleton]
      tauto
    · show (s.helper.keyToIndex.insert key _).size
        = (s.inserted ++ [(key, s.helper.keyToIndex.size)]).length + s.added.length
      rw [TreeMap.size_insert, if_neg hnew, hkept.size, List.length_append, List.length_singleton]
      omega
    · rcases Nat.lt_or_ge j s.inserted.length with hlt | hge
      · rw [List.getElem?_append_left hlt] at hj
        exact hkept.place j key' n hj
      · rw [List.getElem?_append_right hge, List.getElem?_singleton] at hj
        split at hj
        · obtain ⟨-, rfl⟩ := Prod.mk.inj (Option.some.inj hj)
          have hsize := hkept.size
          show j ≤ _ ∧ _ ≤ j + s.added.length
          omega
        · cases hj
    · refine List.pairwise_append.mpr ⟨hkept.increasing, List.pairwise_singleton _ _, ?_⟩
      rintro ⟨k, n⟩ hk x hx
      obtain rfl := List.mem_singleton.mp hx
      exact hkept.lt_size hk
    · rw [TreeMap.getElem?_insert]
      split
      next heq =>
        obtain rfl := Std.LawfulEqCmp.compare_eq_iff_eq.mp heq
        rcases List.mem_append.mp hmem with hmem | hmem
        · exact absurd ((hkept.contains key).mpr (.inl (List.mem_map_of_mem hmem))) hnew
        · obtain ⟨-, rfl⟩ := Prod.mk.inj (List.mem_singleton.mp hmem)
          rfl
      next hne =>
        rcases List.mem_append.mp hmem with hmem | hmem
        · exact hkept.keeps key' n hmem hprocess
        · obtain ⟨rfl, -⟩ := Prod.mk.inj (List.mem_singleton.mp hmem)
          exact absurd Std.ReflCmp.compare_self hne
    · rw [TreeMap.getElem?_insert] at hindex
      split at hindex
      next heq =>
        obtain rfl := Std.LawfulEqCmp.compare_eq_iff_eq.mp heq
        obtain rfl := Option.some.inj hindex
        exact ⟨key, _, List.mem_append_right _ (List.mem_singleton_self _), rfl, rfl⟩
      next =>
        obtain ⟨k, n, hk, hgroup, hindex⟩ := hkept.entries key' index hindex
        exact ⟨k, n, List.mem_append_left _ hk, hgroup, hindex⟩

/-- `finalize` gives out the numbers of inserted keys. -/
lemma kept_finalize (hkept : s.Kept) (processNameOrder : List StdString) :
    History.Kept { s with
      helper := s.helper.finalize processNameOrder
      added := s.added ++ s.helper.missing } := by
  refine ⟨fun key => ?_, ?_, fun j key n hj => ?_, hkept.increasing, fun key n hmem hprocess => ?_,
    fun key index hindex => ?_⟩
  · rw [contains_finalize, hkept.contains, List.mem_append, or_assoc]
  · rw [size_finalize, hkept.size, List.length_append, Nat.add_assoc]
  · have hplace := hkept.place j key n hj
    rw [List.length_append]
    omega
  · exact (getElem?_finalize_named processNameOrder hprocess).trans (hkept.keeps key n hmem hprocess)
  · rw [getElem?_finalize_preferred] at hindex
    cases hbest : preferred processNameOrder (s.helper.named key) with
    | none =>
      rw [hbest] at hindex
      exact hkept.entries key index hindex
    | some e =>
      -- the entry of the preferred key is that of an inserted key of its own group
      rw [hbest] at hindex
      obtain rfl := Option.some.inj hindex
      obtain ⟨hentry, hgroup, -⟩ := mem_named.mp (List.argmin_mem (Option.mem_def.mpr hbest))
      obtain ⟨k, n, hk, hk', hindex⟩ := hkept.entries e.1 e.2 hentry
      exact ⟨k, n, hk, by rw [hk', ← hgroup, default_default], hindex⟩

/-- It holds in every history. -/
lemma kept (h : Reaches History.step ({} : History T) s) : s.Kept := by
  refine h.invariant ⟨fun key => ?_, TreeMap.size_emptyc, ?_, .nil, ?_, ?_⟩
    fun s a s' hkept _ hstep => ?_
  · simp
  · simp
  · simp
  · intro key index hindex
    rw [TreeMap.getElem?_emptyc] at hindex
    cases hindex
  · cases a with
    | insert key =>
      simp only [History.step] at hstep
      split at hstep
      next helper hinsert =>
        obtain rfl := Option.some.inj hstep
        exact kept_insert hkept hinsert
      next =>
        obtain rfl := Option.some.inj hstep
        exact hkept
    | finalize processNameOrder =>
      obtain rfl := Option.some.inj hstep
      exact kept_finalize hkept processNameOrder

/-! ## The indices -/

/-- **No index is given twice, and a key that names a process keeps its own.** After any calls of
`insert` and `finalize` on a helper, in any order and whether or not they threw, with as many entries as
an `unsigned int` counts: `insert` throws on the keys that were inserted and on those that `finalize`
has added, and on no others; the index of the `j`-th inserted key is at least `j`, and larger by no
more than the number of keys that `finalize` has added; two inserted keys have different indices; and
what any key is looked up as is the index of an inserted key of its group. The second and the third
are about keys that name a process. -/
theorem history_indices (h : Reaches History.step ({} : History T) s)
    (hfew : s.helper.keyToIndex.size ≤ 2 ^ 32) :
    (∀ key : ProductKey T, (∃ e, s.helper.insert key = .error e)
      ↔ key ∈ s.inserted.map Prod.fst ∨ key ∈ s.added) ∧
    (∀ (j : ℕ) (key : ProductKey T) (n : ℕ), s.inserted[j]? = some (key, n) → key.processName ≠ [] →
      (s.helper.getIndex key).value.toNat = n ∧ j ≤ n ∧ n ≤ j + s.added.length) ∧
    (∀ key ∈ s.inserted.map Prod.fst, ∀ key' ∈ s.inserted.map Prod.fst, key.processName ≠ [] →
      key'.processName ≠ [] → s.helper.getIndex key = s.helper.getIndex key' → key = key') ∧
    (∀ key : ProductKey T, s.helper.keyToIndex.contains key = true →
      ∃ k n, (k, n) ∈ s.inserted ∧ k.default = key.default ∧
        (s.helper.getIndex key).value.toNat = n) := by
  have hkept := kept h
  have hvalue : ∀ {key k : ProductKey T} {n : ℕ}, (k, n) ∈ s.inserted →
      s.helper.keyToIndex[key]? = some ⟨UInt32.ofNat n⟩ →
      (s.helper.getIndex key).value.toNat = n := by
    intro key k n hk hindex
    have hlt := hkept.lt_size hk
    unfold ProductResolverIndexHelper.getIndex
    rw [hindex]
    exact UInt32.toNat_ofNat_of_lt' (by simp only [UInt32.size]; omega)
  refine ⟨fun key => ?_, fun j key n hj hprocess => ?_, fun key hkey key' hkey' hprocess hprocess' heq =>
    ?_, fun key hcontains => ?_⟩
  · rw [← hkept.contains]
    unfold ProductResolverIndexHelper.insert
    split
    next hcontains => exact iff_of_true ⟨_, rfl⟩ hcontains
    next hcontains =>
      refine iff_of_false ?_ hcontains
      rintro ⟨e, he⟩
      cases he
  · have hmem := List.mem_of_getElem? hj
    exact ⟨hvalue hmem (hkept.keeps key n hmem hprocess), hkept.place j key n hj⟩
  · obtain ⟨⟨k, n⟩, hk, rfl⟩ := List.mem_map.mp hkey
    obtain ⟨⟨k', n'⟩, hk', rfl⟩ := List.mem_map.mp hkey'
    have hn := hvalue hk (hkept.keeps k n hk hprocess)
    have hn' := hvalue hk' (hkept.keeps k' n' hk' hprocess')
    have hsame : n = n' := by
      rw [← hn, ← hn', heq]
    -- the numbers go up, so they are at one place
    obtain ⟨i, hi⟩ := List.getElem?_of_mem hk
    obtain ⟨j, hj⟩ := List.getElem?_of_mem hk'
    obtain ⟨hilt, hi⟩ := List.getElem?_eq_some_iff.mp hi
    obtain ⟨hjlt, hj⟩ := List.getElem?_eq_some_iff.mp hj
    have hpairwise := List.pairwise_iff_getElem.mp hkept.increasing
    rcases Nat.lt_trichotomy i j with hlt | rfl | hlt
    · have hless := hpairwise i j hilt hjlt hlt
      rw [hi, hj] at hless
      exact absurd hsame hless.ne
    · rw [hi] at hj
      exact congrArg Prod.fst hj
    · have hless := hpairwise j i hjlt hilt hlt
      rw [hi, hj] at hless
      exact absurd hsame.symm hless.ne
  · obtain ⟨index, hindex⟩ := contains_iff_getElem?.mp hcontains
    obtain ⟨k, n, hk, hgroup, rfl⟩ := hkept.entries key index hindex
    exact ⟨k, n, hk, hgroup, hvalue hk hindex⟩

/-- Two keys of one product, `finalize`, and a key of another one, which gets the index 3; `insert` of
the key that `finalize` has added throws. -/
def insertedLater : List (Label ℕ) :=
  [.insert ⟨5, [1], [], [3]⟩, .insert ⟨5, [1], [], [2]⟩, .finalize [[2]], .insert ⟨5, [2], [], [2]⟩,
    .insert ⟨5, [1], [], []⟩]

theorem history_indices_insertedLater :
    ∃ s : History ℕ, executeAll History.step {} insertedLater = some s ∧
      s.added = [⟨5, [1], [], []⟩] ∧ (s.helper.getIndex ⟨5, [2], [], [2]⟩).value.toNat = 3 ∧
      ∃ e, s.helper.insert ⟨5, [1], [], []⟩ = .error e := by
  have hrun : ∃ s : History ℕ, executeAll History.step {} insertedLater = some s ∧
      s.helper.keyToIndex.size ≤ 2 ^ 32 ∧ s.added = [⟨5, [1], [], []⟩] ∧
      s.inserted[2]? = some (⟨5, [2], [], [2]⟩, 3) := by
    refine ⟨_, rfl, ?_, rfl, rfl⟩
    exact Nat.le_of_ble_eq_true rfl
  obtain ⟨s, hs, hfew, hadded, hthird⟩ := hrun
  obtain ⟨hthrows, hindex, -, -⟩ := history_indices (.of_executeAll _ hs) hfew
  refine ⟨s, hs, hadded, (hindex 2 _ 3 hthird (by decide)).1, (hthrows _).mpr (.inr ?_)⟩
  rw [hadded]
  exact List.mem_singleton_self _

end UnifyPrototype.ProductHandling
