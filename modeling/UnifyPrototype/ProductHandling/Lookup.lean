import UnifyPrototype.ProductHandling.History

/-!
# From a key to its resolver

A shallow embedding of `TransitionRecordImpl.h` and of `TransitionContext.cc`, and the way of a lookup
through all of it: the context finds the record, the helper of the record finds the index of the key,
and the record has the resolver at this index. `get` does not check that the index is in the vector.
-/

namespace UnifyPrototype.ProductHandling

open UnifyPrototype.Utils
open Std (TreeMap)

variable {T R : Type} [TypeInfo T]

/-! ## Records and contexts -/

/-- `TransitionRecordImpl`. The helper is shared with the builder; `none` in the vector is a null
pointer. -/
structure TransitionRecordImpl (T R : Type) [TypeInfo T] where
  key : TransitionRecordKey T
  resolvers : List (Option R)
  helper : ProductResolverIndexHelper T

/-- `get`; `none` for an index that is not in the vector. -/
def TransitionRecordImpl.get (record : TransitionRecordImpl T R) (index : ProductResolverIndex) :
    Option (Option R) :=
  if index.isUninitialized then some none else record.resolvers[index.value.toNat]?

/-- `TransitionContext`; its pointers are to records that stay as they are. -/
structure TransitionContext (T R : Type) [TypeInfo T] where
  records : TreeMap (TransitionRecordKey T) (TransitionRecordImpl T R) := {}

namespace TransitionContext

/-- `insert`; `emplace` leaves an entry that is there. -/
def insert (context : TransitionContext T R) (record : TransitionRecordImpl T R) :
    TransitionContext T R :=
  { records := context.records.insertIfNew record.key record }

/-- `get`; a null pointer is `none`. -/
def get (context : TransitionContext T R) (key : TransitionRecordKey T) :
    Option (TransitionRecordImpl T R) :=
  context.records[key]?

/-- The context with these records. -/
def insertAll (records : List (TransitionRecordImpl T R)) : TransitionContext T R :=
  records.foldl insert {}

/-- The first record with a key stays. -/
lemma get_foldl (context : TransitionContext T R) (records : List (TransitionRecordImpl T R))
    (key : TransitionRecordKey T) :
    (records.foldl insert context).get key
      = (context.get key).or (records.find? fun record => record.key = key) := by
  induction records generalizing context with
  | nil => simp
  | cons record records ih =>
    rw [List.foldl_cons, ih]
    have hget : (context.insert record).get key
        = (context.get key).or (if record.key = key then some record else none) := by
      unfold insert get
      rw [TreeMap.getElem?_insertIfNew]
      by_cases hkey : record.key = key
      · subst hkey
        rw [if_pos rfl]
        cases hentry : context.records[record.key]? with
        | none =>
          have hnot : ¬ record.key ∈ context.records := by
            rw [TreeMap.mem_iff_isSome_getElem?, hentry]
            nofun
          rw [if_pos ⟨Std.ReflCmp.compare_self, hnot⟩]
          rfl
        | some x =>
          have hmem : record.key ∈ context.records := by
            rw [TreeMap.mem_iff_isSome_getElem?, hentry]
            rfl
          rw [if_neg fun hboth => hboth.2 hmem]
          rfl
      · have hne : compare record.key key ≠ .eq := fun heq =>
          hkey (Std.LawfulEqCmp.compare_eq_iff_eq.mp heq)
        rw [if_neg fun hboth => hne hboth.1, if_neg hkey, Option.or_none]
    rw [hget, Option.or_assoc, List.find?_cons]
    by_cases hkey : record.key = key <;> simp [hkey]

/-- A record is found under its key, the first one if there are several. -/
lemma get_insertAll (records : List (TransitionRecordImpl T R)) (key : TransitionRecordKey T) :
    (insertAll records).get key = records.find? fun record => record.key = key := by
  have hempty : ({} : TransitionContext T R).get key = none := TreeMap.getElem?_emptyc
  rw [insertAll, get_foldl, hempty, Option.none_or]

end TransitionContext

/-! ## The helper of a record -/

variable {h : ProductResolverIndexHelper T} {keys : List (ProductKey T)} {key : ProductKey T}

/-- The calls of `finalize`, one after the other. -/
def ProductResolverIndexHelper.finalizeAll (h : ProductResolverIndexHelper T)
    (orders : List (List StdString)) : ProductResolverIndexHelper T :=
  orders.foldl ProductResolverIndexHelper.finalize h

def ProductResolverIndexHelpersBuilder.finalizeAll (b : ProductResolverIndexHelpersBuilder T)
    (orders : List (List StdString)) : ProductResolverIndexHelpersBuilder T :=
  orders.foldl ProductResolverIndexHelpersBuilder.finalize b

/-- `finalize` reaches the helper of each record. -/
lemma helperFor_finalizeAll (b : ProductResolverIndexHelpersBuilder T)
    (orders : List (List StdString)) (r : TransitionRecordKey T) :
    (b.finalizeAll orders).helperFor r = (b.helperFor r).map (·.finalizeAll orders) := by
  induction orders generalizing b with
  | nil => exact Option.map_id'.symm
  | cons order orders ih =>
    have hone : (b.finalize order).helperFor r = (b.helperFor r).map (·.finalize order) :=
      TreeMap.getElem?_map
    have hrest := ih (b.finalize order)
    rw [hone, Option.map_map] at hrest
    exact hrest

/-- `finalize` adds no candidates. -/
lemma named_finalizeAll (h : ProductResolverIndexHelper T) (orders : List (List StdString))
    (g : ProductKey T) : (h.finalizeAll orders).named g = h.named g := by
  induction orders generalizing h with
  | nil => rfl
  | cons order orders ih => exact (ih (h.finalize order)).trans (named_finalize h order g)

/-- What was declared is a history. -/
lemma kept_of_indexed (hindexed : h.Indexed keys) :
    History.Kept ⟨h, keys.zipIdx, []⟩ := by
  have hmem : ∀ key n, (key, n) ∈ keys.zipIdx ↔ keys[n]? = some key := by
    intro key n
    rw [List.mem_zipIdx_iff_getElem?]
  refine ⟨fun key => ?_, ?_, fun j key n hj => ?_, ?_, fun key n hk _ => ?_, fun key index hindex => ?_⟩
  · rw [hindexed.contains_iff, List.zipIdx_map_fst]
    simp
  · rw [hindexed.size, List.length_zipIdx]
    rfl
  · rw [List.getElem?_zipIdx] at hj
    obtain ⟨k, -, heq⟩ := Option.map_eq_some_iff.mp hj
    obtain ⟨-, rfl⟩ := Prod.mk.inj heq
    rw [List.length_nil]
    omega
  · refine List.pairwise_iff_getElem.mpr fun i j hi hj hlt => ?_
    rw [List.getElem_zipIdx, List.getElem_zipIdx]
    simpa using hlt
  · exact hindexed.index n key ((hmem key n).mp hk)
  · have hkey : key ∈ keys := hindexed.contains_iff.mp (contains_iff_getElem?.mpr ⟨index, hindex⟩)
    obtain ⟨i, hi⟩ := List.getElem?_of_mem hkey
    refine ⟨key, i, (hmem key i).mpr hi, rfl, ?_⟩
    exact Option.some.inj (hindex.symm.trans (hindexed.index i key hi))

/-- Any number of finalizations keep it. -/
lemma kept_finalizeAll {inserted : List (ProductKey T × ℕ)} {added : List (ProductKey T)}
    (hkept : History.Kept ⟨h, inserted, added⟩) (orders : List (List StdString)) :
    ∃ added', History.Kept ⟨h.finalizeAll orders, inserted, added'⟩ := by
  induction orders generalizing h added with
  | nil => exact ⟨added, hkept⟩
  | cons order orders ih => exact ih (kept_finalize hkept order)

/-- After `finalize` every key has the index of a declared key of its group, or none. -/
lemma getIndex_finalizeAll (hindexed : h.Indexed keys)
    (orders : List (List StdString)) (key : ProductKey T) :
    ((h.finalizeAll orders).getIndex key = {} ∧ key ∉ keys) ∨
      ∃ i k, keys[i]? = some k ∧ k.default = key.default ∧
        (h.finalizeAll orders).getIndex key = ⟨UInt32.ofNat i⟩ := by
  obtain ⟨added, hkept⟩ := kept_finalizeAll (kept_of_indexed hindexed) orders
  unfold ProductResolverIndexHelper.getIndex
  cases hindex : (h.finalizeAll orders).keyToIndex[key]? with
  | none =>
    refine .inl ⟨rfl, fun hkey => ?_⟩
    have hcontains := (hkept.contains key).mpr (.inl (by simpa [List.zipIdx_map_fst] using hkey))
    obtain ⟨index, hindex'⟩ := contains_iff_getElem?.mp hcontains
    cases hindex.symm.trans hindex'
  | some index =>
    obtain ⟨k, n, hk, hgroup, rfl⟩ := hkept.entries key index hindex
    exact .inr ⟨n, k, List.mem_zipIdx_iff_getElem?.mp hk, hgroup, rfl⟩

/-- A key that names a process keeps its index. -/
lemma getIndex_finalizeAll_named (orders : List (List StdString)) (hprocess : key.processName ≠ []) :
    (h.finalizeAll orders).getIndex key = h.getIndex key := by
  induction orders generalizing h with
  | nil => rfl
  | cons order orders ih =>
    exact ih.trans (getIndex_congr (getElem?_finalize_named order hprocess))

/-- The last call of `finalize` decides on the keys without a process name. -/
lemma getIndex_finalizeAll_default (hindexed : h.Indexed keys)
    (hnamed : ∀ k ∈ keys, k.processName ≠ []) {orders : List (List StdString)}
    {order : List StdString} (hlast : orders.getLast? = some order) {k : ProductKey T} (hk : k ∈ keys) :
    ∃ i k', keys[i]? = some k' ∧ k'.default = k.default ∧ IsPreferred order keys k' ∧
      (h.finalizeAll orders).getIndex k.default = ⟨UInt32.ofNat i⟩ := by
  obtain ⟨before, rfl⟩ := List.getLast?_eq_some_iff.mp hlast
  have hfinal : h.finalizeAll (before ++ [order]) = (h.finalizeAll before).finalize order := by
    simp only [ProductResolverIndexHelper.finalizeAll, List.foldl_append, List.foldl_cons,
      List.foldl_nil]
  have hne := hindexed.named_ne_nil hk rfl (hnamed k hk)
  obtain ⟨e, he⟩ := Option.ne_none_iff_exists'.mp
    fun hnone : preferred order (h.named k.default) = none => hne (List.argmin_eq_none.mp hnone)
  have hpreferred := isPreferred_of_mem hindexed hnamed (Option.mem_def.mpr he)
  obtain ⟨hmem, hindex, hgroup, -⟩ :=
    hindexed.mem_of_named (List.argmin_mem (Option.mem_def.mpr he))
  obtain ⟨i, hi⟩ := List.getElem?_of_mem hmem
  refine ⟨i, e.1, hi, hgroup, hpreferred, ?_⟩
  rw [← hindexed.getIndex_eq hi, hindex, hfinal]
  unfold ProductResolverIndexHelper.getIndex
  rw [getElem?_finalize_preferred, named_finalizeAll, he]
  rfl

/-! ## The lookup -/

/-- An index below the largest number. -/
lemma TransitionRecordImpl.get_ofNat (record : TransitionRecordImpl T R) {i : ℕ}
    (hi : i < 2 ^ 32 - 1) : record.get ⟨UInt32.ofNat i⟩ = record.resolvers[i]? := by
  have hvalue : (UInt32.ofNat i).toNat = i :=
    UInt32.toNat_ofNat_of_lt' (by simp only [UInt32.size]; omega)
  have hinit : (⟨UInt32.ofNat i⟩ : ProductResolverIndex).isUninitialized ≠ true := by
    intro huninit
    have hmax : UInt32.ofNat i = uninitializedValue := beq_iff_eq.mp huninit
    rw [hmax] at hvalue
    have hnat : uninitializedValue.toNat = 2 ^ 32 - 1 := rfl
    omega
  unfold TransitionRecordImpl.get
  rw [if_neg hinit]
  exact congrArg (record.resolvers[·]?) hvalue

/-- The helper of a record has the keys declared for it, in order. -/
lemma indexed_of_determineAll {providers : List (ProductResolversProvider T)}
    {b : ProductResolverIndexHelpersBuilder T} (hok : determineAll providers = .ok b)
    {r : TransitionRecordKey T} (hr : b.helperFor r = some h) :
    h.Indexed (declaredFor providers r) := by
  have hall := ProductResolverIndexHelpersBuilder.foldlM_declare
    (ProductResolverIndexHelpersBuilder.declared_empty (T := T))
    (providers.flatMap ProductResolversProvider.declares)
  rw [← determineAll_eq, List.nil_append] at hall
  rcases hall with ⟨b', hb', hdeclared⟩ | ⟨d, -, herror, -⟩
  · obtain rfl := Except.ok.inj (hok.symm.trans hb')
    exact hdeclared.some r h hr
  · cases hok.symm.trans herror

end UnifyPrototype.ProductHandling
