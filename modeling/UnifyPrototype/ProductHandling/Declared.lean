import UnifyPrototype.ProductHandling.Model

/-!
# What the providers declare is what is indexed

A helper into which some keys were inserted has exactly these keys, each with the number of the keys
that came before it. The three loops of the builder insert one key after the other, so after each of
them the same holds of every record.
-/

namespace UnifyPrototype.ProductHandling

open Std (TreeMap)

variable {T : Type} [TypeInfo T] {h : ProductResolverIndexHelper T} {key key' : ProductKey T}
  {keys : List (ProductKey T)}

/-! ## One helper -/

/-- The helper has exactly these keys, numbered in their order. -/
structure ProductResolverIndexHelper.Indexed (h : ProductResolverIndexHelper T)
    (keys : List (ProductKey T)) : Prop where
  nodup : keys.Nodup
  size : h.keyToIndex.size = keys.length
  index : ∀ i key, keys[i]? = some key →
    h.keyToIndex[key]? = some (⟨UInt32.ofNat i⟩ : ProductResolverIndex)
  other : ∀ key, key ∉ keys → h.keyToIndex[key]? = none

namespace ProductResolverIndexHelper

/-- A new helper has no keys. -/
lemma indexed_empty : ({} : ProductResolverIndexHelper T).Indexed [] := by
  refine ⟨List.nodup_nil, TreeMap.size_emptyc, ?_, ?_⟩
  · intro i key hkey
    cases hkey
  · intro key _
    exact TreeMap.getElem?_emptyc

lemma Indexed.contains_iff (hindexed : h.Indexed keys) :
    h.keyToIndex.contains key = true ↔ key ∈ keys := by
  rw [TreeMap.contains_eq_isSome_getElem?]
  constructor
  · intro hsome
    by_contra hkey
    rw [hindexed.other key hkey] at hsome
    cases hsome
  · intro hkey
    obtain ⟨i, hi⟩ := List.getElem?_of_mem hkey
    rw [hindexed.index i key hi]
    rfl

/-- A key that is there is not inserted again. -/
lemma Indexed.insert_error (hindexed : h.Indexed keys) (hkey : key ∈ keys) :
    h.insert key = .error (alreadyExists key) := by
  unfold ProductResolverIndexHelper.insert
  rw [if_pos (hindexed.contains_iff.mpr hkey)]
  rfl

/-- A new key gets the next number. -/
lemma Indexed.insert_ok (hindexed : h.Indexed keys) (hkey : key ∉ keys) :
    ∃ h', h.insert key = .ok h' ∧ h'.Indexed (keys ++ [key]) := by
  have hnot : h.keyToIndex.contains key ≠ true := fun hc => hkey (hindexed.contains_iff.mp hc)
  unfold ProductResolverIndexHelper.insert
  rw [if_neg hnot]
  refine ⟨_, rfl, ?_, ?_, ?_, ?_⟩
  · refine List.nodup_append.mpr ⟨hindexed.nodup, by simp, ?_⟩
    intro a ha c hc
    obtain rfl := List.mem_singleton.mp hc
    rintro rfl
    exact hkey ha
  · rw [TreeMap.size_insert, if_neg hnot, hindexed.size, List.length_append, List.length_singleton]
  · intro i key' hi
    rw [TreeMap.getElem?_insert]
    by_cases heq : compare key key' = .eq
    · -- the new key is the last one
      obtain rfl := Std.LawfulEqCmp.compare_eq_iff_eq.mp heq
      have hlast : i = keys.length := by
        rcases Nat.lt_trichotomy i keys.length with hlt | rfl | hgt
        · rw [List.getElem?_append_left hlt] at hi
          exact absurd (List.mem_of_getElem? hi) hkey
        · rfl
        · rw [List.getElem?_eq_none (by simp; omega)] at hi
          cases hi
      rw [if_pos heq, hlast, hindexed.size]
    · have hlt : i < keys.length := by
        by_contra hge
        rw [List.getElem?_append_right (by omega)] at hi
        have hkey' := List.mem_singleton.mp (List.mem_of_getElem? hi)
        exact heq (Std.LawfulEqCmp.compare_eq_iff_eq.mpr hkey'.symm)
      rw [List.getElem?_append_left hlt] at hi
      rw [if_neg heq, hindexed.index i key' hi]
  · intro key' hkey'
    have hne : compare key key' ≠ .eq := by
      intro heq
      obtain rfl := Std.LawfulEqCmp.compare_eq_iff_eq.mp heq
      exact hkey' (List.mem_append_right _ (List.mem_singleton_self key))
    rw [TreeMap.getElem?_insert, if_neg hne]
    exact hindexed.other key' fun hmem => hkey' (List.mem_append_left _ hmem)

/-- The index of a key is its place. -/
lemma Indexed.getIndex_eq (hindexed : h.Indexed keys) {i : ℕ} (hi : keys[i]? = some key) :
    h.getIndex key = ⟨UInt32.ofNat i⟩ := by
  unfold getIndex
  rw [hindexed.index i key hi]

/-- A key that was not declared has the default index. -/
lemma Indexed.getIndex_other (hindexed : h.Indexed keys) (hkey : key ∉ keys) :
    h.getIndex key = {} := by
  unfold getIndex
  rw [hindexed.other key hkey]

/-- Fewer keys than an `unsigned int` counts keep their numbers. -/
lemma Indexed.value_eq (hindexed : h.Indexed keys) (hfew : keys.length ≤ 2 ^ 32) {i : ℕ}
    (hi : keys[i]? = some key) : (h.getIndex key).value.toNat = i := by
  have hlt := (List.getElem?_eq_some_iff.mp hi).1
  rw [hindexed.getIndex_eq hi]
  exact UInt32.toNat_ofNat_of_lt' (by simp only [UInt32.size]; omega)

/-- With fewer than `2 ^ 32` keys that is the uninitialized one. -/
lemma Indexed.isUninitialized_iff (hindexed : h.Indexed keys) (hfew : keys.length < 2 ^ 32) :
    (h.getIndex key).isUninitialized = true ↔ key ∉ keys := by
  constructor
  · intro huninit hkey
    obtain ⟨i, hi⟩ := List.getElem?_of_mem hkey
    have hlt := (List.getElem?_eq_some_iff.mp hi).1
    have hvalue := hindexed.value_eq hfew.le hi
    have hmax : (h.getIndex key).value = uninitializedValue := beq_iff_eq.mp huninit
    rw [hmax] at hvalue
    have hnat : uninitializedValue.toNat = 2 ^ 32 - 1 := rfl
    omega
  · intro hkey
    rw [hindexed.getIndex_other hkey]
    rfl

end ProductResolverIndexHelper

/-! ## The builder -/

/-- The keys that are declared for the record `r`. -/
def keysOf (r : TransitionRecordKey T)
    (declarations : List (TransitionRecordKey T × ProductKey T)) : List (ProductKey T) :=
  (declarations.filter (·.1 = r)).map Prod.snd

@[simp] lemma keysOf_append (r : TransitionRecordKey T)
    (l l' : List (TransitionRecordKey T × ProductKey T)) :
    keysOf r (l ++ l') = keysOf r l ++ keysOf r l' := by
  simp [keysOf]

lemma keysOf_singleton_self (r : TransitionRecordKey T) (key : ProductKey T) :
    keysOf r [(r, key)] = [key] := by
  simp [keysOf]

lemma keysOf_singleton_of_ne {r r' : TransitionRecordKey T} (hne : r' ≠ r) (key : ProductKey T) :
    keysOf r [(r', key)] = [] := by
  simp [keysOf, hne]

variable {b : ProductResolverIndexHelpersBuilder T}
  {declarations : List (TransitionRecordKey T × ProductKey T)}

/-- The builder has a helper for exactly the records with a declared key, and each helper has exactly
the keys that were declared for its record. -/
structure ProductResolverIndexHelpersBuilder.Declared (b : ProductResolverIndexHelpersBuilder T)
    (declarations : List (TransitionRecordKey T × ProductKey T)) : Prop where
  none : ∀ r, b.helpers[r]? = .none ↔ keysOf r declarations = []
  some : ∀ (r : TransitionRecordKey T) (h : ProductResolverIndexHelper T),
    b.helpers[r]? = .some h → h.Indexed (keysOf r declarations)

namespace ProductResolverIndexHelpersBuilder

/-- A new builder has no declarations. -/
lemma declared_empty : ({} : ProductResolverIndexHelpersBuilder T).Declared [] := by
  have hempty : ∀ r, ({} : ProductResolverIndexHelpersBuilder T).helpers[r]? = .none :=
    fun _ => TreeMap.getElem?_emptyc
  refine ⟨fun r => ⟨fun _ => rfl, fun _ => hempty r⟩, fun r h hr => ?_⟩
  rw [hempty r] at hr
  cases hr

/-- The helper that `operator[]` gives has the keys that were declared before. -/
lemma Declared.getD (hdeclared : b.Declared declarations) (r : TransitionRecordKey T) :
    (b.helpers.getD r {}).Indexed (keysOf r declarations) := by
  rw [TreeMap.getD_eq_getD_getElem?]
  cases hr : b.helpers[r]? with
  | none =>
    rw [(hdeclared.none r).mp hr]
    exact ProductResolverIndexHelper.indexed_empty
  | some h => exact hdeclared.some r h hr

/-- A key is declared once for a record. -/
lemma Declared.declare_error (hdeclared : b.Declared declarations) {r : TransitionRecordKey T}
    (hkey : key ∈ keysOf r declarations) : b.declare r key = .error (alreadyExists key) := by
  unfold declare
  rw [(hdeclared.getD r).insert_error hkey]
  rfl

/-- A key that is new for its record is appended to its keys. -/
lemma Declared.declare_ok (hdeclared : b.Declared declarations) {r : TransitionRecordKey T}
    (hkey : key ∉ keysOf r declarations) :
    ∃ b', b.declare r key = .ok b' ∧ b'.Declared (declarations ++ [(r, key)]) := by
  obtain ⟨h', hinsert, hindexed⟩ := (hdeclared.getD r).insert_ok hkey
  refine ⟨{ helpers := b.helpers.insert r h' }, ?_, fun r' => ?_, fun r' h hr => ?_⟩
  · unfold declare
    rw [hinsert]
    rfl
  · rw [TreeMap.getElem?_insert, keysOf_append]
    by_cases heq : compare r r' = .eq
    · obtain rfl := Std.LawfulEqCmp.compare_eq_iff_eq.mp heq
      rw [if_pos heq, keysOf_singleton_self]
      simp
    · have hne : r ≠ r' := fun hr => heq (Std.LawfulEqCmp.compare_eq_iff_eq.mpr hr)
      rw [if_neg heq, keysOf_singleton_of_ne hne, List.append_nil]
      exact hdeclared.none r'
  · rw [TreeMap.getElem?_insert] at hr
    rw [keysOf_append]
    by_cases heq : compare r r' = .eq
    · obtain rfl := Std.LawfulEqCmp.compare_eq_iff_eq.mp heq
      rw [if_pos heq] at hr
      obtain rfl := Option.some.inj hr
      rw [keysOf_singleton_self]
      exact hindexed
    · have hne : r ≠ r' := fun hr => heq (Std.LawfulEqCmp.compare_eq_iff_eq.mpr hr)
      rw [if_neg heq] at hr
      rw [keysOf_singleton_of_ne hne, List.append_nil]
      exact hdeclared.some r' h hr

/-- The declarations come one after the other, up to the first one that is a repetition. -/
lemma foldlM_declare (hdeclared : b.Declared declarations)
    (l : List (TransitionRecordKey T × ProductKey T)) :
    (∃ b', l.foldlM (fun b d => b.declare d.1 d.2) b = .ok b' ∧ b'.Declared (declarations ++ l)) ∨
      ∃ d ∈ l, l.foldlM (fun b d => b.declare d.1 d.2) b = .error (alreadyExists d.2) ∧
        ¬ (keysOf d.1 (declarations ++ l)).Nodup := by
  induction l generalizing b declarations with
  | nil =>
    rw [List.append_nil]
    exact .inl ⟨b, rfl, hdeclared⟩
  | cons d l ih =>
    obtain ⟨r, key⟩ := d
    rw [List.foldlM_cons]
    -- `insert` throws at a repetition, and the loops go no further
    by_cases hkey : key ∈ keysOf r declarations
    · refine .inr ⟨(r, key), List.mem_cons_self, ?_, fun hnodup => ?_⟩
      · rw [hdeclared.declare_error hkey]
        rfl
      · rw [← List.singleton_append, keysOf_append, keysOf_append, keysOf_singleton_self,
          List.nodup_append] at hnodup
        exact hnodup.2.2 key hkey key (List.mem_append_left _ (List.mem_singleton_self key)) rfl
    · obtain ⟨b₁, hdeclare, hdeclared₁⟩ := hdeclared.declare_ok hkey
      rw [hdeclare]
      rcases ih hdeclared₁ with ⟨b', hb', hdeclared'⟩ | ⟨d, hd, herror, hrepeated⟩
      · refine .inl ⟨b', hb', ?_⟩
        rwa [List.append_assoc, List.singleton_append] at hdeclared'
      · refine .inr ⟨d, List.mem_cons_of_mem _ hd, herror, ?_⟩
        rwa [List.append_assoc, List.singleton_append] at hrepeated

end ProductResolverIndexHelpersBuilder

/-! ## The calls of `determineProductsFrom` -/

/-- What one call of `determineProductsFrom` comes to, in the order of its loops. -/
def ProductResolversProvider.declares (provider : ProductResolversProvider T) :
    List (TransitionRecordKey T × ProductKey T) :=
  provider.resolverRecords.flatMap fun recordKey =>
    (provider.productKeysForRecord recordKey).map (recordKey, ·)

/-- A builder after calls of `determineProductsFrom`, one after the other. -/
def determineAll (providers : List (ProductResolversProvider T)) :
    Except Exception (ProductResolverIndexHelpersBuilder T) :=
  providers.foldlM ProductResolverIndexHelpersBuilder.determineProductsFrom {}

/-- A loop whose body is a loop is one loop over all that the inner loops come to. -/
lemma foldlM_flatMap {α β γ ε : Type} (f : β → List γ) (g : α → γ → Except ε α) (l : List β)
    (a : α) : (l.flatMap f).foldlM g a = l.foldlM (fun a c => (f c).foldlM g a) a := by
  induction l generalizing a with
  | nil => rfl
  | cons c l ih =>
    rw [List.flatMap_cons, List.foldlM_append, List.foldlM_cons]
    exact bind_congr fun a' => ih a'

/-- A provider declares its keys one by one. -/
lemma determineProductsFrom_eq (b : ProductResolverIndexHelpersBuilder T)
    (provider : ProductResolversProvider T) : b.determineProductsFrom provider
      = provider.declares.foldlM (fun b d => b.declare d.1 d.2) b := by
  rw [ProductResolversProvider.declares, foldlM_flatMap]
  simp only [List.foldlM_map]
  rfl

/-- The providers declare theirs one after another. -/
lemma determineAll_eq (providers : List (ProductResolversProvider T)) : determineAll providers
    = (providers.flatMap ProductResolversProvider.declares).foldlM
        (fun b d => b.declare d.1 d.2) {} := by
  rw [determineAll, foldlM_flatMap]
  congr 1
  funext b provider
  exact determineProductsFrom_eq b provider

/-- The keys that the providers declare for the record `r`, in the order of the calls. -/
def declaredFor (providers : List (ProductResolversProvider T)) (r : TransitionRecordKey T) :
    List (ProductKey T) :=
  keysOf r (providers.flatMap ProductResolversProvider.declares)

lemma usedRecords_eq (b : ProductResolverIndexHelpersBuilder T) :
    b.usedRecords = b.helpers.keys := by
  have hfold : ∀ (l acc : List (TransitionRecordKey T)),
      l.foldl (fun keys key => keys ++ [key]) acc = acc ++ l := by
    intro l
    induction l with
    | nil => intro acc; simp
    | cons r l ih =>
      intro acc
      rw [List.foldl_cons, ih, List.append_assoc, List.singleton_append]
  unfold ProductResolverIndexHelpersBuilder.usedRecords
  rw [TreeMap.foldl_eq_foldl_keys (f := fun keys key => keys ++ [key]), hfold, List.nil_append]

/-- **The builder indexes exactly what the providers declare.** An exception is thrown if and only if
a key is declared a second time for the same record. If none is thrown, the used records are those
with a declared key, in strictly increasing order, there is no helper for any other record, and the
helper of a used record gives the declared keys the indices `0`, `1`, and so on in their order, and
no index to any other key. -/
theorem indexes_declared (providers : List (ProductResolversProvider T)) :
    ((∃ e, determineAll providers = .error e) ↔ ∃ r, ¬ (declaredFor providers r).Nodup) ∧
    ∀ b, determineAll providers = .ok b →
      b.usedRecords.Pairwise (fun r r' => compare r r' = .lt) ∧
      (∀ r, r ∈ b.usedRecords ↔ declaredFor providers r ≠ []) ∧
      (∀ r, b.helperFor r = none ↔ r ∉ b.usedRecords) ∧
      ∀ r h, b.helperFor r = some h → (declaredFor providers r).length < 2 ^ 32 - 1 →
        (∀ i key, (declaredFor providers r)[i]? = some key →
          (h.getIndex key).value.toNat = i) ∧
        ∀ key, (h.getIndex key).isUninitialized = true ↔ key ∉ declaredFor providers r := by
  have hall := ProductResolverIndexHelpersBuilder.foldlM_declare
    (ProductResolverIndexHelpersBuilder.declared_empty (T := T))
    (providers.flatMap ProductResolversProvider.declares)
  rw [← determineAll_eq, List.nil_append] at hall
  -- without an exception every declaration has been made
  have hnodup : ∀ b, determineAll providers = .ok b →
      b.Declared (providers.flatMap ProductResolversProvider.declares) := by
    intro b hb
    rcases hall with ⟨b', hb', hdeclared⟩ | ⟨d, -, herror, -⟩
    · obtain rfl := Except.ok.inj (hb.symm.trans hb')
      exact hdeclared
    · cases hb.symm.trans herror
  refine ⟨⟨?_, ?_⟩, fun b hb => ?_⟩
  · rintro ⟨e, he⟩
    rcases hall with ⟨b', hb', -⟩ | ⟨d, -, -, hrepeated⟩
    · cases he.symm.trans hb'
    · exact ⟨d.1, hrepeated⟩
  · rintro ⟨r, hrepeated⟩
    rcases hall with ⟨b', hb', hdeclared⟩ | ⟨d, -, herror, -⟩
    · refine absurd ?_ hrepeated
      cases hr : b'.helpers[r]? with
      | none =>
        rw [declaredFor, (hdeclared.none r).mp hr]
        exact List.nodup_nil
      | some h => exact (hdeclared.some r h hr).nodup
    · exact ⟨_, herror⟩
  · have hdeclared := hnodup b hb
    -- `operator[]` makes a helper when the first key of its record comes
    have hmem : ∀ r, r ∈ b.usedRecords ↔ b.helpers[r]? ≠ none := by
      intro r
      rw [usedRecords_eq, TreeMap.mem_keys, TreeMap.mem_iff_isSome_getElem?,
        Option.isSome_iff_ne_none]
    refine ⟨?_, fun r => ?_, fun r => ?_, fun r h hr hfew => ⟨fun i key hi => ?_, fun key => ?_⟩⟩
    · rw [usedRecords_eq]
      exact TreeMap.ordered_keys
    · exact (hmem r).trans (hdeclared.none r).not
    · rw [hmem r, not_not]
      rfl
    · exact (hdeclared.some r h hr).value_eq (by unfold declaredFor at hfew; omega) hi
    · exact (hdeclared.some r h hr).isUninitialized_iff (by unfold declaredFor at hfew; omega)

/-- The first one declares two keys for the record `0` and none for the record `1`, the second one
declares another key for the record `0`. -/
def twoProviders : List (ProductResolversProvider ℕ) :=
  [⟨[⟨0⟩, ⟨1⟩], fun r => if r = ⟨0⟩ then [⟨5, [2], [], [1]⟩, ⟨5, [1], [], [1]⟩] else []⟩,
    ⟨[⟨0⟩], fun _ => [⟨5, [3], [], [1]⟩]⟩]

theorem indexes_declared_twoProviders :
    ∃ b h, determineAll twoProviders = .ok b ∧ b.helperFor ⟨0⟩ = some h ∧ b.helperFor ⟨1⟩ = none ∧
      (h.getIndex ⟨5, [3], [], [1]⟩).value.toNat = 2 := by
  have hrun : ∃ b, determineAll twoProviders = .ok b := ⟨_, rfl⟩
  obtain ⟨b, hb⟩ := hrun
  obtain ⟨-, hused, hnone, hindex⟩ := (indexes_declared twoProviders).2 b hb
  have hsome : b.helperFor ⟨0⟩ ≠ none := by
    rw [Ne, hnone, not_not, hused]
    decide
  obtain ⟨h, hh⟩ := Option.ne_none_iff_exists'.mp hsome
  refine ⟨b, h, hb, hh, ?_, (hindex ⟨0⟩ h hh (by decide)).1 2 _ (by decide)⟩
  rw [hnone, hused]
  decide

end UnifyPrototype.ProductHandling
