import UnifyPrototype.ProductHandling.Declared
import UnifyPrototype.Utils.TreeMap

/-!
# The key with the empty process name

`finalize` gives the key with the empty process name of each group the index of one key of the group.
Among the keys that name a process it takes one whose process comes first in the given order, and the
first of them in the order of the map; a key of the group that names no process only counts where it
is the only one.
-/

namespace UnifyPrototype.ProductHandling

open UnifyPrototype.Utils
open Std (TreeMap)

variable {T : Type} {g key : ProductKey T} {processNameOrder : List StdString}
  {keys : List (ProductKey T)}

/-- Only a key without a process name is its own default. -/
lemma default_eq_self_iff : key.default = key ↔ key.processName = [] := by
  constructor
  · intro heq
    rw [← heq]
    rfl
  · intro hprocess
    cases key
    obtain rfl := hprocess
    rfl

@[simp] lemma processName_default (key : ProductKey T) : key.default.processName = [] :=
  rfl

@[simp] lemma default_default (key : ProductKey T) : key.default.default = key.default :=
  rfl

/-! ## The choice in one group -/

/-- What the first loop makes of the members of one group. -/
def chooseAll (processNameOrder : List StdString) (prod : Option Candidate)
    (group : List (ProductKey T × ProductResolverIndex)) : Option Candidate :=
  group.foldl (fun prod e => some (choose processNameOrder (prod.getD ([], {})) e)) prod

/-- The entry whose process comes first in the given order; of those that do not occur in it, the
first one. -/
def preferred (processNameOrder : List StdString)
    (group : List (ProductKey T × ProductResolverIndex)) :
    Option (ProductKey T × ProductResolverIndex) :=
  group.argmin fun e => find processNameOrder e.1.processName

/-- The candidate that an entry is. -/
def candidate (e : ProductKey T × ProductResolverIndex) : Candidate :=
  (e.1.processName, e.2)

/-- The earlier process name wins, and of two that are equal the one that was there. -/
lemma choose_named {best e : ProductKey T × ProductResolverIndex} (hbest : best.1.processName ≠ []) :
    choose processNameOrder (candidate best) e
      = if find processNameOrder e.1.processName < find processNameOrder best.1.processName then
          candidate e else candidate best := by
  have hne : (candidate best).1.isEmpty ≠ true := fun hempty => hbest (List.isEmpty_iff.mp hempty)
  unfold choose
  rw [if_neg hne]
  rfl

/-- Where all name a process, the loop is the search for the preferred entry. -/
lemma chooseAll_named {group : List (ProductKey T × ProductResolverIndex)}
    (hnamed : ∀ e ∈ group, e.1.processName ≠ []) :
    chooseAll processNameOrder none group = (preferred processNameOrder group).map candidate := by
  induction group using List.reverseRecOn with
  | nil => rfl
  | append_singleton group e ih =>
    have hih := ih fun e he => hnamed e (List.mem_append_left _ he)
    have hstep : chooseAll processNameOrder none (group ++ [e])
        = some (choose processNameOrder ((chooseAll processNameOrder none group).getD ([], {})) e) := by
      simp only [chooseAll, List.foldl_append, List.foldl_cons, List.foldl_nil]
    rw [hstep, hih, preferred, preferred, List.argmin_concat]
    cases hbest : group.argmin fun e => find processNameOrder e.1.processName with
    | none => rfl
    | some best =>
      have hmem := List.argmin_mem (Option.mem_def.mpr hbest)
      rw [Option.map_some, Option.getD_some,
        choose_named (hnamed best (List.mem_append_left _ hmem))]
      dsimp only
      split_ifs <;> rfl

/-- The entries that name no process leave the choice to the others. -/
lemma chooseAll_unnamed_append {unnamed named : List (ProductKey T × ProductResolverIndex)}
    (hunnamed : ∀ e ∈ unnamed, e.1.processName = []) (hne : named ≠ []) :
    chooseAll processNameOrder none (unnamed ++ named) = chooseAll processNameOrder none named := by
  have hempty : ∀ prod : Option Candidate, (prod.getD ([], {})).1 = [] →
      ((chooseAll processNameOrder prod unnamed).getD ([], {})).1 = [] := by
    intro prod hprod
    induction unnamed generalizing prod with
    | nil => exact hprod
    | cons e l ih =>
      have he := hunnamed e List.mem_cons_self
      refine ih (fun e he => hunnamed e (List.mem_cons_of_mem _ he)) _ ?_
      simp only [Option.getD_some, choose, hprod, List.isEmpty_nil, if_true, he]
  obtain ⟨e, named, rfl⟩ := List.exists_cons_of_ne_nil hne
  have hsplit : chooseAll processNameOrder none (unnamed ++ e :: named)
      = chooseAll processNameOrder (some (choose processNameOrder
          ((chooseAll processNameOrder none unnamed).getD ([], {})) e)) named := by
    simp only [chooseAll, List.foldl_append, List.foldl_cons]
  -- whatever they left, the first one that names a process takes its place
  have hfirst : choose processNameOrder ((chooseAll processNameOrder none unnamed).getD ([], {})) e
      = choose processNameOrder ([], {}) e := by
    simp only [choose, hempty none rfl, List.isEmpty_nil, if_true]
  rw [hsplit, hfirst]
  rfl

/-- On their own, the last one of them is chosen. -/
lemma chooseAll_unnamed {unnamed : List (ProductKey T × ProductResolverIndex)}
    (hunnamed : ∀ e ∈ unnamed, e.1.processName = []) :
    chooseAll processNameOrder none unnamed = unnamed.getLast?.map candidate := by
  induction unnamed using List.reverseRecOn with
  | nil => rfl
  | append_singleton l e ih =>
    have hih := ih fun e he => hunnamed e (List.mem_append_left _ he)
    have hstep : chooseAll processNameOrder none (l ++ [e])
        = some (choose processNameOrder ((chooseAll processNameOrder none l).getD ([], {})) e) := by
      simp only [chooseAll, List.foldl_append, List.foldl_cons, List.foldl_nil]
    have hempty : ((l.getLast?.map candidate).getD ([], {})).1 = ([] : StdString) := by
      cases hlast : l.getLast? with
      | none => rfl
      | some e' => exact hunnamed e' (List.mem_append_left _ (List.mem_of_getLast? hlast))
    rw [hstep, hih, List.getLast?_append_of_ne_nil _ (by simp)]
    simp only [choose, hempty, List.isEmpty_nil, if_true]
    rfl

/-! ## The members of a group -/

variable [TypeInfo T] {h h' : ProductResolverIndexHelper T}

/-- In a group the order is that of the process names. -/
lemma compare_of_default_eq {k k' : ProductKey T} (hgroup : k.default = k'.default) :
    compare k k' = compare k.processName k'.processName := by
  obtain ⟨htype, hlabel, hinstance, -⟩ := ProductKey.mk.inj hgroup
  rw [compare_productKey, htype, hlabel, hinstance]
  simp only [Std.ReflCmp.compare_self, Ordering.eq_then]

/-- No name comes before the empty one. -/
lemma isEmpty_of_compare_lt {a b : StdString} (hlt : compare a b = .lt) (hb : b.isEmpty = true) :
    a.isEmpty = true := by
  obtain rfl := List.isEmpty_iff.mp hb
  cases a with
  | nil => rfl
  | cons c l => cases hlt

/-- The entries whose key with the empty process name is `g`, in the order of the map. -/
def ProductResolverIndexHelper.members (h : ProductResolverIndexHelper T) (g : ProductKey T) :
    List (ProductKey T × ProductResolverIndex) :=
  h.keyToIndex.toList.filter fun e => compare e.1.default g = .eq

/-- Those of them that name a process. -/
def ProductResolverIndexHelper.named (h : ProductResolverIndexHelper T) (g : ProductKey T) :
    List (ProductKey T × ProductResolverIndex) :=
  h.keyToIndex.toList.filter fun e => compare e.1.default g = .eq && !e.1.processName.isEmpty

lemma mem_members {e : ProductKey T × ProductResolverIndex} :
    e ∈ h.members g ↔ h.keyToIndex[e.1]? = some e.2 ∧ e.1.default = g := by
  unfold ProductResolverIndexHelper.members
  rw [List.mem_filter, decide_eq_true_eq, Std.LawfulEqCmp.compare_eq_iff_eq,
    TreeMap.mem_toList_iff_getElem?_eq_some]

/-- The candidates of a default are the members with a process name. -/
lemma mem_named {e : ProductKey T × ProductResolverIndex} :
    e ∈ h.named g ↔
      h.keyToIndex[e.1]? = some e.2 ∧ e.1.default = g ∧ e.1.processName ≠ [] := by
  unfold ProductResolverIndexHelper.named
  rw [List.mem_filter, Bool.and_eq_true, decide_eq_true_eq, Std.LawfulEqCmp.compare_eq_iff_eq,
    TreeMap.mem_toList_iff_getElem?_eq_some, Bool.not_eq_true', ← Bool.not_eq_true,
    List.isEmpty_iff]

/-- In a group the entry that names no process comes first. -/
lemma members_eq (h : ProductResolverIndexHelper T) (g : ProductKey T) :
    h.members g = (h.members g).filter (fun e => e.1.processName.isEmpty) ++ h.named g := by
  have hpairwise : (h.members g).Pairwise fun a b =>
      compare a.1 b.1 = .lt ∧ a.1.default = b.1.default := by
    refine List.Pairwise.imp_of_mem ?_ (pairwise_toList_filter h.keyToIndex _)
    intro a b ha hb hlt
    exact ⟨hlt, (mem_members.mp ha).2.trans (mem_members.mp hb).2.symm⟩
  have hnamed : (h.members g).filter (fun e => !e.1.processName.isEmpty) = h.named g := by
    unfold ProductResolverIndexHelper.members ProductResolverIndexHelper.named
    rw [List.filter_filter]
    simp only [Bool.and_comm]
  rw [← hnamed]
  refine filter_append_filter_not hpairwise ?_
  rintro a b ⟨hlt, hgroup⟩ hempty
  rw [compare_of_default_eq hgroup] at hlt
  exact isEmpty_of_compare_lt hlt hempty

/-! ## `finalize` -/

/-- The first loop makes its choice in each group, the second one writes what was chosen. -/
lemma getElem?_finalize (h : ProductResolverIndexHelper T) (processNameOrder : List StdString)
    (g : ProductKey T) : (h.finalize processNameOrder).keyToIndex[g]?
      = ((chooseAll processNameOrder none (h.members g)).map Prod.snd).or h.keyToIndex[g]? := by
  unfold ProductResolverIndexHelper.finalize
  dsimp only
  have hgroup := getElem?_foldl_group ProductKey.default ([], {}) (choose processNameOrder)
    h.keyToIndex.toList ({} : TreeMap (ProductKey T) Candidate) g
  rw [TreeMap.getElem?_emptyc] at hgroup
  rw [getElem?_foldl_insert _ Prod.snd, TreeMap.foldl_eq_foldl_toList]
  congr 2

/-- **The key with the empty process name gets the index of the preferred entry**, if a key of its
group names a process. -/
theorem getElem?_finalize_preferred (h : ProductResolverIndexHelper T)
    (processNameOrder : List StdString) (g : ProductKey T) :
    (h.finalize processNameOrder).keyToIndex[g]?
      = ((preferred processNameOrder (h.named g)).map Prod.snd).or h.keyToIndex[g]? := by
  have hunnamed : ∀ e ∈ (h.members g).filter (fun e => e.1.processName.isEmpty),
      e.1.processName = [] := by
    intro e he
    exact List.isEmpty_iff.mp (List.mem_filter.mp he).2
  have hall : ∀ e ∈ h.named g, e.1.processName ≠ [] := fun e he => (mem_named.mp he).2.2
  rw [getElem?_finalize, members_eq]
  by_cases hnamed : h.named g = []
  · rw [hnamed, List.append_nil, chooseAll_unnamed hunnamed]
    show _ = h.keyToIndex[g]?
    cases hlast : ((h.members g).filter fun e => e.1.processName.isEmpty).getLast? with
    | none => rfl
    | some e =>
      -- the only entry of the group is that of `g` itself
      have hmem := List.mem_of_getLast? hlast
      obtain ⟨hentry, hgroup⟩ := mem_members.mp (List.mem_filter.mp hmem).1
      have hself : e.1 = g := (default_eq_self_iff.mpr (hunnamed e hmem)).symm.trans hgroup
      rw [hself] at hentry
      rw [hentry]
      rfl
  · rw [chooseAll_unnamed_append hunnamed hnamed, chooseAll_named hall]
    cases hbest : preferred processNameOrder (h.named g) with
    | none => exact absurd (List.argmin_eq_none.mp hbest) hnamed
    | some e => rfl

/-- Only a key with the empty process name stands for a group. -/
lemma named_eq_nil (hkey : key.processName ≠ []) : h.named key = [] := by
  refine List.eq_nil_iff_forall_not_mem.mpr fun e he => hkey ?_
  rw [← (mem_named.mp he).2.1]
  rfl

/-- A key that names a process keeps its entry. -/
lemma getElem?_finalize_named (processNameOrder : List StdString) (hkey : key.processName ≠ []) :
    (h.finalize processNameOrder).keyToIndex[key]? = h.keyToIndex[key]? := by
  rw [getElem?_finalize_preferred, named_eq_nil hkey]
  rfl

end UnifyPrototype.ProductHandling
