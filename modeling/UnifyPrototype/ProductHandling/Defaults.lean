import UnifyPrototype.ProductHandling.Finalize

/-!
# What `finalize` leaves behind

After keys were inserted, `finalize` resolves the empty process name of each group and changes nothing
else, unless a key with the empty process name was inserted itself beside another key of its group.
What an earlier `finalize` has written plays no part in a later one.
-/

namespace UnifyPrototype.ProductHandling

open UnifyPrototype.Utils
open Std (TreeMap)

variable {T : Type} [TypeInfo T] {h : ProductResolverIndexHelper T} {k key : ProductKey T}
  {keys : List (ProductKey T)} {processNameOrder : List StdString}

/-! ## Inserting keys -/

/-- A helper after calls of `insert`, one after the other. -/
def insertAll (keys : List (ProductKey T)) : Except Exception (ProductResolverIndexHelper T) :=
  keys.foldlM ProductResolverIndexHelper.insert {}

/-- Keys that are inserted without an error are appended in order. -/
lemma indexed_foldlM {h₀ : ProductResolverIndexHelper T} {before : List (ProductKey T)}
    (hindexed : h₀.Indexed before)
    (hrun : keys.foldlM ProductResolverIndexHelper.insert h₀ = .ok h) :
    h.Indexed (before ++ keys) := by
  induction keys generalizing h₀ before with
  | nil =>
    obtain rfl := Except.ok.inj hrun
    rwa [List.append_nil]
  | cons key keys ih =>
    rw [List.foldlM_cons] at hrun
    by_cases hkey : key ∈ before
    · rw [hindexed.insert_error hkey] at hrun
      cases hrun
    · obtain ⟨h₁, hinsert, hindexed₁⟩ := hindexed.insert_ok hkey
      rw [hinsert] at hrun
      have hih := ih hindexed₁ hrun
      rwa [List.append_assoc, List.singleton_append] at hih

lemma indexed_of_insertAll (hrun : insertAll keys = .ok h) : h.Indexed keys :=
  indexed_foldlM ProductResolverIndexHelper.indexed_empty hrun

/-- A candidate is a key that was declared, with its index. -/
lemma ProductResolverIndexHelper.Indexed.mem_of_named (hindexed : h.Indexed keys)
    {e : ProductKey T × ProductResolverIndex} {g : ProductKey T} (he : e ∈ h.named g) :
    e.1 ∈ keys ∧ h.getIndex e.1 = e.2 ∧ e.1.default = g ∧ e.1.processName ≠ [] := by
  obtain ⟨hentry, hgroup, hprocess⟩ := mem_named.mp he
  refine ⟨?_, ?_, hgroup, hprocess⟩
  · by_contra hkey
    rw [hindexed.other e.1 hkey] at hentry
    cases hentry
  · unfold getIndex
    rw [hentry]

/-- A key with a process name is a candidate. -/
lemma ProductResolverIndexHelper.Indexed.named_ne_nil (hindexed : h.Indexed keys)
    {g : ProductKey T} (hk : k ∈ keys) (hgroup : k.default = g) (hprocess : k.processName ≠ []) :
    h.named g ≠ [] := by
  obtain ⟨i, hi⟩ := List.getElem?_of_mem hk
  have hmem : (k, (⟨UInt32.ofNat i⟩ : ProductResolverIndex)) ∈ h.named g :=
    mem_named.mpr ⟨hindexed.index i k hi, hgroup, hprocess⟩
  exact List.ne_nil_of_mem hmem

lemma getIndex_congr {h h' : ProductResolverIndexHelper T}
    (hentry : h.keyToIndex[key]? = h'.keyToIndex[key]?) : h.getIndex key = h'.getIndex key := by
  unfold ProductResolverIndexHelper.getIndex
  rw [hentry]

/-! ## The preferred process -/

/-- The process of `k` comes first in the given order, or none of the group does and its name is the
smallest one. -/
def IsPreferred (processNameOrder : List StdString) (keys : List (ProductKey T))
    (k : ProductKey T) : Prop :=
  (k.processName ∈ processNameOrder ∧ ∀ k' ∈ keys, k'.default = k.default →
    find processNameOrder k.processName ≤ find processNameOrder k'.processName) ∨
  ∀ k' ∈ keys, k'.default = k.default →
    k'.processName ∉ processNameOrder ∧ (compare k.processName k'.processName).isLE = true

/-- What is left of the candidates is preferred among the keys. -/
lemma isPreferred_of_mem (hindexed : h.Indexed keys) (hnamed : ∀ k ∈ keys, k.processName ≠ [])
    {g : ProductKey T} {e : ProductKey T × ProductResolverIndex}
    (he : e ∈ preferred processNameOrder (h.named g)) : IsPreferred processNameOrder keys e.1 := by
  obtain ⟨hmem, hleast, hfirst⟩ := List.mem_argmin_iff.mp he
  obtain ⟨-, -, hgroup, -⟩ := hindexed.mem_of_named hmem
  have hentry : ∀ k' ∈ keys, k'.default = e.1.default → (k', h.getIndex k') ∈ h.named g := by
    intro k' hk' hgroup'
    obtain ⟨i, hi⟩ := List.getElem?_of_mem hk'
    refine mem_named.mpr ⟨?_, hgroup'.trans hgroup, hnamed k' hk'⟩
    rw [hindexed.index i k' hi, hindexed.getIndex_eq hi]
  by_cases hoccurs : e.1.processName ∈ processNameOrder
  · exact .inl ⟨hoccurs, fun k' hk' hgroup' => hleast _ (hentry k' hk' hgroup')⟩
  · -- no process of the group occurs, so all are found at the end
    have hend : find processNameOrder e.1.processName = processNameOrder.length :=
      List.idxOf_eq_length_iff.mpr hoccurs
    refine .inr fun k' hk' hgroup' => ?_
    have hmem' := hentry k' hk' hgroup'
    have hle : processNameOrder.length ≤ find processNameOrder k'.processName := by
      rw [← hend]
      exact hleast _ hmem'
    refine ⟨fun hoccurs' => ?_, ?_⟩
    · have hlt := List.idxOf_lt_length_of_mem hoccurs'
      unfold find at hle
      omega
    · have hbound : find processNameOrder k'.processName ≤ processNameOrder.length :=
        List.idxOf_le_length
      have horder := hfirst (k', h.getIndex k') hmem' (by rw [hend]; exact hbound)
      rw [← compare_of_default_eq hgroup'.symm]
      exact isLE_of_idxOf_le (pairwise_toList_filter h.keyToIndex _) hmem hmem' horder

/-- **`finalize` resolves a missing process name to the preferred process.** -/
theorem finalize_resolves (keys : List (ProductKey T)) (processNameOrder : List StdString)
    (h : ProductResolverIndexHelper T) (hrun : insertAll keys = .ok h)
    (hnamed : ∀ k ∈ keys, k.processName ≠ []) :
    (∀ k ∈ keys, ∃ k' ∈ keys, k'.default = k.default ∧ IsPreferred processNameOrder keys k' ∧
      (h.finalize processNameOrder).getIndex k.default = h.getIndex k') ∧
    (∀ k ∈ keys, (h.finalize processNameOrder).getIndex k = h.getIndex k) ∧
    ∀ key, key ∉ keys → (∀ k ∈ keys, k.default ≠ key) →
      ((h.finalize processNameOrder).getIndex key).isUninitialized = true := by
  have hindexed := indexed_of_insertAll hrun
  refine ⟨fun k hk => ?_, fun k hk => ?_, fun key hkey hdefault => ?_⟩
  · have hne := hindexed.named_ne_nil hk rfl (hnamed k hk)
    obtain ⟨e, he⟩ := Option.ne_none_iff_exists'.mp
      fun hnone : preferred processNameOrder (h.named k.default) = none =>
        hne (List.argmin_eq_none.mp hnone)
    have hpreferred := isPreferred_of_mem hindexed hnamed (Option.mem_def.mpr he)
    obtain ⟨hmem, hindex, hgroup, -⟩ :=
      hindexed.mem_of_named (List.argmin_mem (Option.mem_def.mpr he))
    refine ⟨e.1, hmem, hgroup, hpreferred, ?_⟩
    unfold ProductResolverIndexHelper.getIndex at hindex ⊢
    rw [getElem?_finalize_preferred, he, hindex]
    rfl
  · exact getIndex_congr (getElem?_finalize_named processNameOrder (hnamed k hk))
  · have hnone : h.named key = [] := by
      refine List.eq_nil_iff_forall_not_mem.mpr fun e he => ?_
      obtain ⟨hmem, -, hgroup, -⟩ := hindexed.mem_of_named he
      exact hdefault e.1 hmem hgroup
    have hentry : (h.finalize processNameOrder).keyToIndex[key]? = h.keyToIndex[key]? := by
      rw [getElem?_finalize_preferred, hnone]
      rfl
    rw [getIndex_congr hentry, hindexed.getIndex_other hkey]
    rfl

/-- Three processes of one product. -/
def threeProcesses : List (ProductKey ℕ) :=
  [⟨5, [1], [], [3]⟩, ⟨5, [1], [], [2]⟩, ⟨5, [1], [], [4]⟩]

theorem finalize_resolves_threeProcesses : ∃ h, insertAll threeProcesses = .ok h ∧
    ∃ k ∈ threeProcesses, IsPreferred [[9], [4], [2], [4]] threeProcesses k ∧
      (h.finalize [[9], [4], [2], [4]]).getIndex ⟨5, [1], [], []⟩ = h.getIndex k := by
  have hrun : ∃ h, insertAll threeProcesses = .ok h := ⟨_, rfl⟩
  obtain ⟨h, hh⟩ := hrun
  obtain ⟨hresolved, -, -⟩ := finalize_resolves threeProcesses [[9], [4], [2], [4]] h hh (by decide)
  obtain ⟨k, hk, -, hpreferred, hindex⟩ := hresolved ⟨5, [1], [], [3]⟩ (by decide)
  exact ⟨h, hh, k, hk, hpreferred, hindex⟩

/-! ## Keys without a process name -/

/-- A key with the empty process name is the only one of its group. -/
def UnnamedAlone (keys : List (ProductKey T)) : Prop :=
  ∀ k ∈ keys, k.processName = [] → ∀ k' ∈ keys, k'.default = k → k' = k

/-- **`finalize` re-targets an inserted key exactly where it names no process and has company.** The
index that it gets belongs to another key of the group; so many keys that indices are repeated are
left out of the second part. -/
theorem finalize_keeps_iff (keys : List (ProductKey T)) (processNameOrder : List StdString)
    (h : ProductResolverIndexHelper T) (hrun : insertAll keys = .ok h) :
    (UnnamedAlone keys →
      ∀ k ∈ keys, (h.finalize processNameOrder).getIndex k = h.getIndex k) ∧
    (keys.length ≤ 2 ^ 32 →
      (∀ k ∈ keys, (h.finalize processNameOrder).getIndex k = h.getIndex k) → UnnamedAlone keys) := by
  have hindexed := indexed_of_insertAll hrun
  constructor
  · intro halone k hk
    by_cases hprocess : k.processName = []
    · have hnone : h.named k = [] := by
        refine List.eq_nil_iff_forall_not_mem.mpr fun e he => ?_
        obtain ⟨hmem, -, hgroup, hnamed⟩ := hindexed.mem_of_named he
        rw [halone k hk hprocess e.1 hmem hgroup] at hnamed
        exact hnamed hprocess
      refine getIndex_congr ?_
      rw [getElem?_finalize_preferred, hnone]
      rfl
    · exact getIndex_congr (getElem?_finalize_named processNameOrder hprocess)
  · intro hfew hkeeps k hk hprocess k' hk' hgroup
    by_contra hne
    have hnamed' : k'.processName ≠ [] := fun hempty =>
      hne ((default_eq_self_iff.mpr hempty).symm.trans hgroup)
    obtain ⟨e, he⟩ := Option.ne_none_iff_exists'.mp
      fun hnone : preferred processNameOrder (h.named k) = none =>
        hindexed.named_ne_nil hk' hgroup hnamed' (List.argmin_eq_none.mp hnone)
    obtain ⟨hmem, hindex, -, hnamed⟩ :=
      hindexed.mem_of_named (List.argmin_mem (Option.mem_def.mpr he))
    have htarget : (h.finalize processNameOrder).getIndex k = e.2 := by
      unfold ProductResolverIndexHelper.getIndex
      rw [getElem?_finalize_preferred, he]
      rfl
    -- two keys with one index are one key
    have hsame : h.getIndex k = h.getIndex e.1 := by
      rw [hindex, ← htarget, hkeeps k hk]
    obtain ⟨i, hi⟩ := List.getElem?_of_mem hk
    obtain ⟨j, hj⟩ := List.getElem?_of_mem hmem
    have hij : i = j := by
      rw [← hindexed.value_eq hfew hi, ← hindexed.value_eq hfew hj, hsame]
    subst hij
    obtain rfl := Option.some.inj (hi.symm.trans hj)
    exact hnamed hprocess

/-- A key without a process name, and one of another product. -/
def unnamedAlone : List (ProductKey ℕ) :=
  [⟨5, [1], [], []⟩, ⟨5, [2], [], [1]⟩]

theorem finalize_keeps_iff_unnamedAlone : ∃ h, insertAll unnamedAlone = .ok h ∧
    (h.finalize []).getIndex ⟨5, [1], [], []⟩ = h.getIndex ⟨5, [1], [], []⟩ ∧
    UnnamedAlone unnamedAlone := by
  have hrun : ∃ h, insertAll unnamedAlone = .ok h := ⟨_, rfl⟩
  obtain ⟨h, hh⟩ := hrun
  have halone : UnnamedAlone unnamedAlone := by
    unfold UnnamedAlone
    decide
  obtain ⟨hkeeps, honly⟩ := finalize_keeps_iff unnamedAlone [] h hh
  exact ⟨h, hh, hkeeps halone _ (by decide), honly (by decide) (hkeeps halone)⟩

/-- The key without a process name has the index 0, and after `finalize` the index 1 of the other one
of its group. -/
theorem unnamed_retargeted : ¬ ∀ (keys : List (ProductKey ℕ)) (processNameOrder : List StdString)
    (h : ProductResolverIndexHelper ℕ), insertAll keys = .ok h →
      ∀ k ∈ keys, (h.finalize processNameOrder).getIndex k = h.getIndex k := by
  intro hall
  have hrun : ∃ h, insertAll [(⟨5, [1], [], []⟩ : ProductKey ℕ), ⟨5, [1], [], [1]⟩] = .ok h ∧
      (h.finalize []).getIndex ⟨5, [1], [], []⟩ = ⟨1⟩ ∧ h.getIndex ⟨5, [1], [], []⟩ = ⟨0⟩ :=
    ⟨_, rfl, rfl, rfl⟩
  obtain ⟨h, hh, hafter, hbefore⟩ := hrun
  have hsame := hall _ [] h hh ⟨5, [1], [], []⟩ (by decide)
  rw [hafter, hbefore] at hsame
  cases hsame

/-! ## Calling `finalize` again -/

/-- What `finalize` writes is not among the entries that name a process. -/
lemma named_finalize (h : ProductResolverIndexHelper T) (processNameOrder : List StdString)
    (g : ProductKey T) : (h.finalize processNameOrder).named g = h.named g := by
  refine toList_filter_congr (fun k : ProductKey T =>
    compare k.default g = .eq && !k.processName.isEmpty) ?_
  intro k hk
  refine getElem?_finalize_named processNameOrder fun hprocess => ?_
  simp [hprocess] at hk

/-- **The last `finalize` wins.** After two calls every key has the entry that the second one alone
would have given it, in each helper and in each helper of the builder. -/
theorem last_finalize_wins (first second : List StdString) :
    (∀ (h : ProductResolverIndexHelper T) (key : ProductKey T),
      ((h.finalize first).finalize second).getIndex key = (h.finalize second).getIndex key ∧
      ((h.finalize first).finalize second).keyToIndex[key]?
        = (h.finalize second).keyToIndex[key]?) ∧
    ∀ (b : ProductResolverIndexHelpersBuilder T) (r : TransitionRecordKey T) (key : ProductKey T),
      (((b.finalize first).finalize second).helperFor r).map (·.getIndex key)
        = ((b.finalize second).helperFor r).map (·.getIndex key) := by
  have hentry : ∀ (h : ProductResolverIndexHelper T) (key : ProductKey T),
      ((h.finalize first).finalize second).keyToIndex[key]?
        = (h.finalize second).keyToIndex[key]? := by
    intro h key
    rw [getElem?_finalize_preferred (h.finalize first), getElem?_finalize_preferred h second,
      named_finalize]
    cases hbest : preferred second (h.named key) with
    | some e => rfl
    | none =>
      -- nobody in the group names a process, so the first call has changed nothing
      have hnone : h.named key = [] := List.argmin_eq_none.mp hbest
      rw [getElem?_finalize_preferred h first, hnone]
      rfl
  refine ⟨fun h key => ⟨getIndex_congr (hentry h key), hentry h key⟩, fun b r key => ?_⟩
  have hhelper : ∀ (b : ProductResolverIndexHelpersBuilder T) (order : List StdString),
      (b.finalize order).helperFor r = (b.helperFor r).map (·.finalize order) := by
    intro b order
    exact TreeMap.getElem?_map
  rw [hhelper, hhelper, hhelper]
  cases b.helperFor r with
  | none => rfl
  | some h => exact congrArg some (getIndex_congr (hentry h key))

end UnifyPrototype.ProductHandling
