import UnifyPrototype.WaitingTaskList.Waiting
import Mathlib.Data.List.Nodup

/-!
# Where the nodes are

A node is published before it is linked, and several threads announce. Each reference that `add` has
taken is in one place: with a thread, on the list, on the part of it that an announcing thread has
taken, or released. The lists are those that the nodes form once every `setNextNode` is done.
-/

namespace UnifyPrototype.WaitingTaskList

open UnifyPrototype.Utils

variable {E : Type} {s s' s₁ : State E} {a i : ℕ} {pt : Point E} {p q : Option (Point E)}

/-! ## The nodes in use -/

/-- The node at `n`, unless it is free. -/
def State.assigned (s : State E) : NodeRef → Option WaitNode
  | .cached i => if i < s.lastAssignedCacheIndex then s.nodeCache[i]? else none
  | .heap a => s.heap a

/-- The node at `n` was made by the call `t` and its `m_next` is `o`. -/
def State.At (s : State E) (n : NodeRef) (t : Added) (o : Option NodeRef) : Prop :=
  ∃ node, s.assigned n = some node ∧ node.added = t ∧ node.next = o

/-- A node has one task and one next node. -/
lemma State.At.unique {n : NodeRef} {t t' : Added} {o o' : Option NodeRef} (h : s.At n t o)
    (h' : s.At n t' o') : t = t' ∧ o = o' := by
  obtain ⟨node, hnode, rfl, rfl⟩ := h
  obtain ⟨node', hnode', rfl, rfl⟩ := h'
  obtain rfl := Option.some.inj (hnode.symm.trans hnode')
  exact ⟨rfl, rfl⟩

lemma node_of_assigned {n : NodeRef} {node : WaitNode} (h : s.assigned n = some node) :
    s.node n = some node := by
  cases n with
  | cached j =>
    change (if j < s.lastAssignedCacheIndex then s.nodeCache[j]? else none) = some node at h
    split at h
    · exact h
    · cases h
  | heap b => exact h

lemma at_congr (h : s'.assigned = s.assigned) {n : NodeRef} {t : Added} {o : Option NodeRef} :
    s'.At n t o ↔ s.At n t o := by
  unfold State.At
  rw [h]

lemma assigned_setNextNode_self (s : State E) (o : Option NodeRef) (n : NodeRef) :
    (s.setNextNode o n).assigned n = (s.assigned n).map ({ · with next := o }) := by
  cases n with
  | cached j =>
    show (if j < s.lastAssignedCacheIndex then (s.nodeCache.modify j _)[j]? else none)
      = (if j < s.lastAssignedCacheIndex then s.nodeCache[j]? else none).map _
    split
    · rw [List.getElem?_modify_eq]
      rfl
    · rfl
  | heap b => exact Function.update_self _ _ _

lemma assigned_setNextNode_of_ne (s : State E) (o : Option NodeRef) {n n' : NodeRef}
    (h : n' ≠ n) : (s.setNextNode o n).assigned n' = s.assigned n' := by
  cases n with
  | cached i =>
    cases n' with
    | cached j =>
      have hne : i ≠ j := fun heq => h (heq ▸ rfl)
      show (if j < s.lastAssignedCacheIndex then (s.nodeCache.modify i _)[j]? else none)
        = if j < s.lastAssignedCacheIndex then s.nodeCache[j]? else none
      rw [List.getElem?_modify_ne _ _ hne]
    | heap b => rfl
  | heap a =>
    cases n' with
    | cached j => rfl
    | heap b =>
      have hne : b ≠ a := fun heq => h (heq ▸ rfl)
      exact Function.update_of_ne hne _ _

/-- `createNode` takes a node that was free. -/
lemma assigned_createNode {t : Added} {n : NodeRef} (h : s.createNode t a = some (s₁, n))
    (hfew : s.lastAssignedCacheIndex + 1 < 2 ^ 32) :
    s.assigned n = none ∧ s₁.At n t (some n) ∧ ∀ n' ≠ n, s₁.assigned n' = s.assigned n' := by
  have hmod := Nat.mod_eq_of_lt hfew
  simp only [State.createNode, hmod] at h
  split at h
  next hlt =>
    obtain ⟨rfl, rfl⟩ := Prod.mk.inj (Option.some.inj h)
    refine ⟨if_neg (lt_irrefl _), ?_, fun n' hne => ?_⟩
    · refine ⟨{ s.nodeCache[s.lastAssignedCacheIndex] with
        added := t, next := some (.cached s.lastAssignedCacheIndex) }, ?_, rfl, rfl⟩
      show (if s.lastAssignedCacheIndex < s.lastAssignedCacheIndex + 1 then
        (s.nodeCache.modify s.lastAssignedCacheIndex _)[s.lastAssignedCacheIndex]? else none) = _
      rw [if_pos (Nat.lt_succ_self _), List.getElem?_modify_eq, List.getElem?_eq_getElem hlt]
      rfl
    · cases n' with
      | cached j =>
        have hne' : s.lastAssignedCacheIndex ≠ j := fun heq => hne (heq ▸ rfl)
        show (if j < s.lastAssignedCacheIndex + 1 then
            (s.nodeCache.modify s.lastAssignedCacheIndex _)[j]? else none)
          = if j < s.lastAssignedCacheIndex then s.nodeCache[j]? else none
        rw [List.getElem?_modify_ne _ _ hne']
        exact if_congr (by omega) rfl rfl
      | heap b => rfl
  next hge =>
    split at h
    next hfree =>
      obtain ⟨rfl, rfl⟩ := Prod.mk.inj (Option.some.inj h)
      refine ⟨hfree, ⟨_, Function.update_self _ _ _, rfl, rfl⟩, fun n' hne => ?_⟩
      cases n' with
      | cached j =>
        -- the cache is used up
        show (if j < s.lastAssignedCacheIndex + 1 then s.nodeCache[j]? else none)
          = if j < s.lastAssignedCacheIndex then s.nodeCache[j]? else none
        by_cases hj : j < s.lastAssignedCacheIndex
        · rw [if_pos hj, if_pos (Nat.lt_succ_of_lt hj)]
        · rw [if_neg hj, List.getElem?_eq_none (by omega), ite_self]
      | heap b =>
        have hne' : b ≠ a := fun heq => hne (heq ▸ rfl)
        exact Function.update_of_ne hne' _ _
    next => cases h

lemma assigned_free (s : State E) {n n' : NodeRef} (b : Bool)
    (h : n' ≠ n ∨ ∃ i, n' = .cached i) :
    (if b then s else s.delete n).assigned n' = s.assigned n' := by
  cases b with
  | true => rfl
  | false =>
    cases n with
    | cached i => rfl
    | heap a =>
      cases n' with
      | cached j => rfl
      | heap b =>
        rcases h with hne | ⟨j, hj⟩
        · have hne' : b ≠ a := fun heq => hne (heq ▸ rfl)
          exact Function.update_of_ne hne' _ _
        · cases hj

lemma at_of_free {n n' : NodeRef} {b : Bool} {t : Added} {o : Option NodeRef}
    (h : (if b then s else s.delete n).At n' t o) : s.At n' t o := by
  by_cases hne : n' ≠ n ∨ ∃ i, n' = .cached i
  · obtain ⟨node, hnode, ht, ho⟩ := h
    exact ⟨node, (assigned_free s b hne).symm.trans hnode, ht, ho⟩
  · cases b with
    | true => exact h
    | false =>
      obtain ⟨rfl, hheap⟩ := not_or.mp hne |>.imp_left not_not.mp
      cases n' with
      | cached j => exact h
      | heap a =>
        obtain ⟨node, hnode, -⟩ := h
        have hnone : (s.delete (.heap a)).assigned (.heap a) = none := Function.update_self _ _ _
        cases hnone.symm.trans hnode

/-! ## Lists of nodes -/

/-- The next node of `n`, which the call `t` made, is `o`, or will be when the call has done its
`setNextNode`. -/
def State.Linked (s : State E) (n : NodeRef) (t : Added) (o : Option NodeRef) : Prop :=
  (s.At n t o ∧ o ≠ some n) ∨
    (s.At n t (some n) ∧ ∃ (i : ℕ) (ov : Overload), s.threads[i]? = some (some (.setNext ov t n o)))

/-- The nodes of `l` are linked in this order, and it ends there. -/
def State.Chained (s : State E) : List (NodeRef × Added) → Prop
  | [] => True
  | (n, t) :: l => s.Linked n t (l.head?.map Prod.fst) ∧ s.Chained l

/-- What a thread knows about its node, and that `c` is what it has taken from the list and not
looked at. -/
def State.Follows (s : State E) : Option (Point E) → List (NodeRef × Added) → Prop
  | some (.exchangeHead _ t n), c => c = [] ∧ s.At n t (some n)
  | some (.setNext _ t n old), c => c = [] ∧ s.At n t (some n) ∧ old ≠ some n
  | some (.setNextAgain t n), c =>
    c = [] ∧ (∀ o, s.At n t o → o = none) ∧ ∀ i, n = .cached i → s.At n t none
  | some (.readNext n), c => c.head?.map Prod.fst = some n
  | some (.fail t n next), c | some (.free t n next), c =>
    next = c.head?.map Prod.fst ∧ ∃ o, s.At n t o ∧ o ≠ some n
  | some (.release _ next), c => next = c.head?.map Prod.fst
  | _, c => c = []

/-- One for a thread that has the reference of the call `t`, which no list has. -/
def carry (t : Added) : Option (Point E) → ℕ
  | some (.readWaiting _ t') | some (.late t') | some (.lateRelease t') | some (.createNode _ t')
  | some (.exchangeHead _ t' _) | some (.fail t' _ _) | some (.free t' _ _)
  | some (.release t' _) => if t' = t then 1 else 0
  | _ => 0

/-- One for a node of the call `t`. -/
def queued (t : Added) (x : NodeRef × Added) : ℕ :=
  if x.2 = t then 1 else 0

/-- `stack` is on the list, and thread `i` has taken `chains[i]`. -/
structure State.Owned (s : State E) (stack : List (NodeRef × Added))
    (chains : List (List (NodeRef × Added))) : Prop where
  head : s.head = stack.head?.map Prod.fst
  length : chains.length = s.threads.length
  onList : s.Chained stack
  taken : ∀ c ∈ chains, s.Chained c
  follows : ∀ (i : ℕ) (p : Option (Point E)) (c : List (NodeRef × Added)),
    s.threads[i]? = some p → chains[i]? = some c → s.Follows p c
  places : ∀ t, tally (carry t) s.threads + tally (queued t) stack
    + tally (fun c => tally (queued t) c) chains + s.released.count t = s.added.count t

variable {stack stack' c c' : List (NodeRef × Added)} {chains : List (List (NodeRef × Added))}

/-- Every thread has a chain. -/
lemma State.Owned.chain (howned : s.Owned stack chains) {i : ℕ} {q : Option (Point E)}
    (hi : s.threads[i]? = some q) : ∃ c, chains[i]? = some c ∧ s.Follows q c := by
  have hlt : i < chains.length := howned.length ▸ (List.getElem?_eq_some_iff.mp hi).1
  have hc := List.getElem?_eq_getElem hlt
  exact ⟨_, hc, howned.follows i q _ hi hc⟩

/-- An addition is made once. -/
lemma State.Called.count_le (h : s.Called) (t : Added) : s.added.count t ≤ 1 :=
  List.nodup_iff_count_le_one.mp h.nodup t

/-- One thread is in each call. -/
lemma State.Called.unique (h : s.Called) {t : Added} {i j : ℕ} (hi : s.threads[i]? = some p)
    (hj : s.threads[j]? = some q) (hp : WaitingTaskList.calling t p = 1)
    (hq : WaitingTaskList.calling t q = 1) : i = j := by
  by_contra hne
  have hboth := add_le_tally (WaitingTaskList.calling t) hne hi hj
  have hle := h.calling t
  have hone := h.count_le t
  omega

/-- A reference that a thread has is in no list. -/
lemma State.Owned.carry_eq_zero (h : s.Owned stack chains) (hcalled : s.Called)
    (hi : s.threads[i]? = some p) {x : NodeRef × Added}
    (hx : x ∈ stack ∨ ∃ c ∈ chains, x ∈ c) : carry x.2 p = 0 := by
  have hplaces := h.places x.2
  have hone := hcalled.count_le x.2
  have hle := le_tally (carry x.2) hi
  have hself : queued x.2 x = 1 := if_pos rfl
  rcases hx with hx | ⟨c, hc, hx⟩
  · have hqueued := le_tally_of_mem (queued x.2) hx
    omega
  · have hqueued := le_tally_of_mem (queued x.2) hx
    have hchain : tally (queued x.2) c ≤ tally (fun c => tally (queued x.2) c) chains :=
      le_tally_of_mem _ hc
    omega

/-- Two threads do not have the same reference. -/
lemma State.Owned.carry_unique (h : s.Owned stack chains) (hcalled : s.Called) {t : Added} {j : ℕ}
    (hi : s.threads[i]? = some p) (hj : s.threads[j]? = some q) (hne : i ≠ j)
    (hp : carry t p = 1) : carry t q = 0 := by
  have hplaces := h.places t
  have hone := hcalled.count_le t
  have hle := add_le_tally (carry t) hne hi hj
  omega

lemma State.Chained.linked {l : List (NodeRef × Added)} (h : s.Chained l) {x : NodeRef × Added}
    (hx : x ∈ l) : ∃ o, s.At x.1 x.2 o := by
  induction l with
  | nil => cases hx
  | cons y l ih =>
    obtain ⟨n, t⟩ := y
    rcases List.mem_cons.mp hx with rfl | hx
    · rcases h.1 with ⟨hat, -⟩ | ⟨hat, -⟩ <;> exact ⟨_, hat⟩
    · exact ih h.2 hx

/-! ## A step of one thread -/

/-- Thread `i` goes from `q` to `p`. The nodes stay as they are, except that `createNode` makes one,
`setNextNode` links the one that its call has made, and `announce` deletes the one that it has
looked at. -/
structure Moved (s s' : State E) (i : ℕ) (q p : Option (Point E)) : Prop where
  threads : s'.threads = s.threads.set i p
  keep : ∀ n t o, s.At n t o → s'.At n t o ∨ (∃ ov old, q = some (.setNext ov t n old)) ∨
    ∃ a next, n = .heap a ∧ q = some (.free t n next)
  back : ∀ n t o, s'.At n t o → s.At n t o ∨ (∃ ov, q = some (.createNode ov t)) ∨
    ∃ ov old, q = some (.setNext ov t n old)
  set : ∀ ov t n old, q = some (.setNext ov t n old) → s.At n t (some n) → s'.At n t old

lemma Moved.of_assigned (hthreads : s'.threads = s.threads.set i p)
    (h : s'.assigned = s.assigned) (hq : ∀ ov t n old, q ≠ some (.setNext ov t n old)) :
    Moved s s' i q p :=
  ⟨hthreads, fun _ _ _ hat => .inl ((at_congr h).mpr hat), fun _ _ _ hat => .inl ((at_congr h).mp hat),
    fun ov t n old heq => absurd heq (hq ov t n old)⟩

lemma Moved.getElem? (m : Moved s s' i q p) {j : ℕ} (hne : j ≠ i) {pt : Option (Point E)}
    (hj : s.threads[j]? = some pt) : s'.threads[j]? = some pt := by
  rw [m.threads, List.getElem?_set_ne hne.symm, hj]

/-- A node stays linked. -/
lemma State.Linked.moved (hcalled : s.Called) (hi : s.threads[i]? = some q) (hfollows : s.Follows q c)
    (m : Moved s s' i q p) {n : NodeRef} {t : Added} {o : Option NodeRef} (h : s.Linked n t o)
    (hq : carry t q = 0) : s'.Linked n t o := by
  have hfree : ¬ ∃ a next, n = .heap a ∧ q = some (.free t n next) := by
    rintro ⟨a, next, -, rfl⟩
    exact absurd hq (by simp [carry])
  rcases h with ⟨hat, hne⟩ | ⟨hat, j, ov, hj⟩
  · rcases m.keep n t o hat with hat' | ⟨ov, old, rfl⟩ | hf
    · exact .inl ⟨hat', hne⟩
    · -- the node of a call before its `setNextNode` is not linked yet
      exact absurd (hat.unique hfollows.2.1).2 hne
    · exact absurd hf hfree
  · by_cases hji : j = i
    · subst hji
      obtain rfl := Option.some.inj (hi.symm.trans hj)
      exact .inl ⟨m.set ov t n o rfl hat, hfollows.2.2⟩
    · rcases m.keep n t (some n) hat with hat' | ⟨ov', old, rfl⟩ | hf
      · exact .inr ⟨hat', j, ov, m.getElem? hji hj⟩
      · exact absurd (hcalled.unique (t := t) hj hi (if_pos rfl) (if_pos rfl)) hji
      · exact absurd hf hfree

/-- A step that writes no node of a chain leaves the chain. -/
lemma State.Chained.moved (hcalled : s.Called) (hi : s.threads[i]? = some q)
    (hfollows : s.Follows q c) (m : Moved s s' i q p) {l : List (NodeRef × Added)}
    (h : s.Chained l) (hq : ∀ x ∈ l, carry x.2 q = 0) : s'.Chained l := by
  induction l with
  | nil => trivial
  | cons x l ih =>
    obtain ⟨n, t⟩ := x
    exact ⟨h.1.moved hcalled hi hfollows m (hq (n, t) (List.mem_cons_self ..)),
      ih h.2 fun y hy => hq y (List.mem_cons_of_mem _ hy)⟩

/-- Another thread still knows what it knew. -/
lemma State.Follows.moved (howned : s.Owned stack chains) (hcalled : s.Called)
    (hi : s.threads[i]? = some q) (hfollows : s.Follows q c) (m : Moved s s' i q p) {j : ℕ}
    {r : Option (Point E)} (hj : s.threads[j]? = some r) (hne : j ≠ i) (h : s.Follows r c') :
    s'.Follows r c' := by
  have hcall : ∀ {t : Added}, calling t r = 1 → calling t q ≠ 1 := fun hr hq =>
    hne (hcalled.unique hj hi hr hq)
  have hcarry : ∀ {t : Added}, carry t r = 1 → carry t q = 0 := fun hr =>
    howned.carry_unique hcalled hj hi hne hr
  match r, h with
  | none, h => exact h
  | some (.exchangeHead ov t n), h =>
    refine ⟨h.1, ?_⟩
    rcases m.keep n t _ h.2 with hat | ⟨ov', old, rfl⟩ | ⟨a, next, -, rfl⟩
    · exact hat
    · exact absurd (if_pos rfl) (hcall (t := t) (if_pos rfl))
    · exact absurd (hcarry (t := t) (if_pos rfl)) (by simp [carry])
  | some (.setNext ov t n old), h =>
    refine ⟨h.1, ?_, h.2.2⟩
    rcases m.keep n t _ h.2.1 with hat | ⟨ov', old', rfl⟩ | ⟨a, next, -, rfl⟩
    · exact hat
    · exact absurd (if_pos rfl) (hcall (t := t) (if_pos rfl))
    · -- a node that is not linked is not looked at
      obtain ⟨-, o, hat, hself⟩ := hfollows
      exact absurd (hat.unique h.2.1).2 hself
  | some (.setNextAgain t n), h =>
    refine ⟨h.1, fun o hat => ?_, fun k hk => ?_⟩
    · rcases m.back n t o hat with hat' | ⟨ov', rfl⟩ | ⟨ov', old, rfl⟩
      · exact h.2.1 o hat'
      · exact absurd (if_pos rfl) (hcall (t := t) (if_pos rfl))
      · exact absurd (if_pos rfl) (hcall (t := t) (if_pos rfl))
    · rcases m.keep n t _ (h.2.2 k hk) with hat | ⟨ov', old, rfl⟩ | ⟨a, next, hheap, -⟩
      · exact hat
      · exact absurd (if_pos rfl) (hcall (t := t) (if_pos rfl))
      · cases hk.symm.trans hheap
  | some (.fail t n next), h | some (.free t n next), h =>
    obtain ⟨hnext, o, hat, hself⟩ := h
    refine ⟨hnext, ?_⟩
    rcases m.keep n t o hat with hat' | ⟨ov', old, rfl⟩ | ⟨a, next', -, rfl⟩
    · exact ⟨o, hat', hself⟩
    · exact absurd (hat.unique hfollows.2.1).2 hself
    · exact absurd (hcarry (t := t) (if_pos rfl)) (by simp [carry])
  | some (.readWaiting _ _), h | some (.late _), h | some (.lateRelease _), h
  | some (.createNode _ _), h | some .recheckWaiting, h | some (.setException _), h
  | some .clearWaiting, h | some .exchangeNull, h | some (.readNext _), h
  | some (.release _ _), h => exact h

/-- The thread that moved hands on what it had. -/
lemma State.Owned.moved (howned : s.Owned stack chains) (hcalled : s.Called)
    (hi : s.threads[i]? = some q) (hc : chains[i]? = some c) (m : Moved s s' i q p)
    (hhead : s'.head = stack'.head?.map Prod.fst)
    (hchained : s'.Chained stack → s'.Chained c → s'.Chained stack' ∧ s'.Chained c')
    (hfollows : s'.Follows p c')
    (hplaces : ∀ t, carry t p + tally (queued t) stack' + tally (queued t) c' + s'.released.count t
        + s.added.count t
      = carry t q + tally (queued t) stack + tally (queued t) c + s.released.count t
        + s'.added.count t) :
    s'.Owned stack' (chains.set i c') := by
  have hbefore := howned.follows i q c hi hc
  have hboth := hchained
    (howned.onList.moved hcalled hi hbefore m fun x hx => howned.carry_eq_zero hcalled hi (.inl hx))
    ((howned.taken c (List.mem_of_getElem? hc)).moved hcalled hi hbefore m fun x hx =>
      howned.carry_eq_zero hcalled hi (.inr ⟨c, List.mem_of_getElem? hc, hx⟩))
  refine ⟨hhead, ?_, hboth.1, fun d hd => ?_, fun j r d hj hd => ?_, fun t => ?_⟩
  · rw [m.threads, List.length_set, List.length_set, howned.length]
  · rcases List.mem_or_eq_of_mem_set hd with hd | rfl
    · exact (howned.taken d hd).moved hcalled hi hbefore m fun x hx =>
        howned.carry_eq_zero hcalled hi (.inr ⟨d, hd, hx⟩)
    · exact hboth.2
  · by_cases hji : j = i
    · subst hji
      rw [m.threads, List.getElem?_set_self (List.getElem?_eq_some_iff.mp hi).1] at hj
      rw [List.getElem?_set_self (List.getElem?_eq_some_iff.mp hc).1] at hd
      obtain rfl := Option.some.inj hj
      obtain rfl := Option.some.inj hd
      exact hfollows
    · rw [m.threads, List.getElem?_set_ne (Ne.symm hji)] at hj
      rw [List.getElem?_set_ne (Ne.symm hji)] at hd
      exact hbefore.moved howned hcalled hi m hj hji (howned.follows j r d hj hd)
  · -- the sums change by what this thread hands on
    have hcarry := tally_set (carry t) p hi
    have hqueued := tally_set (fun c => tally (queued t) c) c' hc
    have hsum := howned.places t
    have hown := hplaces t
    rw [m.threads]
    omega

end UnifyPrototype.WaitingTaskList
