import UnifyPrototype.WaitingTaskList.Released

/-!
# Each call has one node

A call of `add` makes one node, and a node of the heap is deleted before the reference of its call is
released. So a call that has not linked its node has not been looked at, and when everything is
released no node of the heap is left.
-/

namespace UnifyPrototype.WaitingTaskList

open UnifyPrototype.Utils

variable {E : Type} {s s' s₁ : State E} {a i : ℕ} {pt : Point E} {p q : Option (Point E)}
  {stack c : List (NodeRef × Added)} {chains : List (List (NodeRef × Added))}

/-! ## Where a call is -/

/-- One for a thread in call `t` of `add` that has made no node. -/
def unmade (t : Added) : Option (Point E) → ℕ
  | some (.readWaiting _ t') | some (.late t') | some (.lateRelease t') | some (.createNode _ t') =>
    if t' = t then 1 else 0
  | _ => 0

/-- One for a thread that has looked at the node of call `t` and has not released its reference. -/
def announced (t : Added) : Option (Point E) → ℕ
  | some (.fail t' _ _) | some (.free t' _ _) | some (.release t' _) => if t' = t then 1 else 0
  | _ => 0

/-- One for a thread that is done with the node of call `t` and has not released its reference. -/
def releasing (t : Added) : Option (Point E) → ℕ
  | some (.release t' _) => if t' = t then 1 else 0
  | _ => 0

lemma unmade_le_carry (t : Added) (p : Option (Point E)) : unmade t p ≤ carry t p := by
  unfold unmade
  split
  all_goals first | exact le_rfl | exact Nat.zero_le _

lemma releasing_le_carry (t : Added) (p : Option (Point E)) : releasing t p ≤ carry t p := by
  unfold releasing
  split
  all_goals first | exact le_rfl | exact Nat.zero_le _

lemma announced_le_carry (t : Added) (p : Option (Point E)) : announced t p ≤ carry t p := by
  unfold announced
  split
  all_goals first | exact le_rfl | exact Nat.zero_le _

/-- The node of a call is the only one it has made; until it is linked nobody has looked at it; and
it is gone, if it is one of the heap, before the reference is released. -/
structure State.Single (s : State E) : Prop where
  unique : ∀ n m t o o', s.At n t o → s.At m t o' → n = m
  made : ∀ n t o, s.At n t o → t ∈ s.added ∧ tally (unmade t) s.threads = 0
  kept : ∀ a t o, s.At (.heap a) t o → t ∉ s.released ∧ tally (releasing t) s.threads = 0
  linking : ∀ (i : ℕ) ov t n old, s.threads[i]? = some (some (.setNext ov t n old)) →
    t ∉ s.released ∧ tally (announced t) s.threads = 0
  fromCache : ∀ a node, s.heap a = some node → node.fromCache = false

/-! ## The nodes after an operation -/

/-- `setNextNode` makes no node. -/
lemma at_of_setNextNode {n m : NodeRef} {t : Added} {o o' : Option NodeRef}
    (h : (s.setNextNode o' m).At n t o) : ∃ o'', s.At n t o'' := by
  obtain ⟨node, hnode, ht, -⟩ := h
  by_cases hne : n = m
  · subst hne
    rw [assigned_setNextNode_self] at hnode
    obtain ⟨node', hnode', rfl⟩ := Option.map_eq_some_iff.mp hnode
    exact ⟨_, node', hnode', ht, rfl⟩
  · exact ⟨_, node, (assigned_setNextNode_of_ne s o' hne).symm.trans hnode, ht, rfl⟩

lemma heap_of_setNextNode (s : State E) (o : Option NodeRef) (m : NodeRef) {b : ℕ} {node : WaitNode}
    (h : (s.setNextNode o m).heap b = some node) :
    ∃ node', s.heap b = some node' ∧ node.fromCache = node'.fromCache := by
  cases m with
  | cached k => exact ⟨node, h, rfl⟩
  | heap k =>
    by_cases hb : b = k
    · subst hb
      have hupdate : (s.heap b).map ({ · with next := o }) = some node :=
        (Function.update_self b _ s.heap).symm.trans h
      obtain ⟨node', hnode', rfl⟩ := Option.map_eq_some_iff.mp hupdate
      exact ⟨node', hnode', rfl⟩
    · exact ⟨node, (Function.update_of_ne hb _ s.heap).symm.trans h, rfl⟩

lemma heap_of_free (s : State E) (m : NodeRef) (fromCache : Bool) {b : ℕ} {node : WaitNode}
    (h : (if fromCache then s else s.delete m).heap b = some node) : s.heap b = some node := by
  cases fromCache with
  | true => exact h
  | false =>
    cases m with
    | cached k => exact h
    | heap k =>
      by_cases hb : b = k
      · subst hb
        cases (Function.update_self b _ s.heap).symm.trans h
      · exact (Function.update_of_ne hb _ s.heap).symm.trans h

lemma heap_of_createNode {t : Added} {n : NodeRef} (h : s.createNode t a = some (s₁, n)) (b : ℕ)
    (node : WaitNode) (hb : s₁.heap b = some node) :
    s.heap b = some node ∨ node.fromCache = false := by
  simp only [State.createNode] at h
  split at h
  · obtain ⟨rfl, -⟩ := Prod.mk.inj (Option.some.inj h)
    exact .inl hb
  · split at h
    · obtain ⟨rfl, -⟩ := Prod.mk.inj (Option.some.inj h)
      by_cases hab : b = a
      · subst hab
        obtain rfl := Option.some.inj ((Function.update_self b _ s.heap).symm.trans hb)
        exact .inr rfl
      · exact .inl ((Function.update_of_ne hab _ s.heap).symm.trans hb)
    · cases h

lemma assigned_cached_zero (h : s.lastAssignedCacheIndex = 0) (k : ℕ) :
    s.assigned (.cached k) = none := by
  show (if k < s.lastAssignedCacheIndex then s.nodeCache[k]? else none) = none
  rw [h, if_neg (Nat.not_lt_zero k)]

/-! ## Steps -/

/-- A step of thread `i` that makes no node. -/
lemma single_move (h : s.Single) (hi : s.threads[i]? = some q)
    (hthreads : s'.threads = s.threads.set i p) (hadded : ∀ t ∈ s.added, t ∈ s'.added)
    (hat : ∀ n t o, s'.At n t o → ∃ o', s.At n t o')
    (hunmade : ∀ n t o, s.At n t o → unmade t p = 0)
    (hkept : ∀ a t o, s'.At (.heap a) t o → t ∉ s'.released ∧ releasing t p = 0)
    (hother : ∀ j ov t n old, j ≠ i → s.threads[j]? = some (some (.setNext ov t n old)) →
      t ∉ s'.released ∧ announced t p = 0)
    (hself : ∀ ov t n old, p = some (.setNext ov t n old) →
      t ∉ s'.released ∧ tally (announced t) s.threads = 0)
    (hheap : ∀ a node, s'.heap a = some node → ∃ node', s.heap a = some node' ∧
      node.fromCache = node'.fromCache) : s'.Single := by
  refine ⟨fun n m t o o' hn hm => ?_, fun n t o hn => ?_, fun b t o hn => ?_,
    fun j ov t n old hj => ?_, fun b node hb => ?_⟩
  · obtain ⟨_, hn⟩ := hat n t o hn
    obtain ⟨_, hm⟩ := hat m t o' hm
    exact h.unique n m t _ _ hn hm
  · obtain ⟨_, hn⟩ := hat n t o hn
    obtain ⟨hmem, hzero⟩ := h.made n t _ hn
    -- a task with a node is not about to get another one
    have hset := tally_set (unmade t) p hi
    rw [hzero, hunmade n t _ hn] at hset
    refine ⟨hadded t hmem, ?_⟩
    rw [hthreads]
    omega
  · obtain ⟨hmem, hp⟩ := hkept b t o hn
    obtain ⟨_, hn⟩ := hat _ t o hn
    -- nor is it being released
    have hset := tally_set (releasing t) p hi
    rw [(h.kept b t _ hn).2, hp] at hset
    refine ⟨hmem, ?_⟩
    rw [hthreads]
    omega
  · -- a node that is linked belongs to this thread alone
    have hset := tally_set (announced t) p hi
    rw [hthreads] at hj ⊢
    rcases getElem?_goto hj with ⟨-, rfl⟩ | ⟨hne, hj⟩
    · obtain ⟨hmem, hzero⟩ := hself ov t n old rfl
      have hnone : announced t (some (.setNext ov t n old : Point E)) = 0 := rfl
      exact ⟨hmem, by omega⟩
    · obtain ⟨hmem, hp⟩ := hother j ov t n old hne hj
      have hzero := (h.linking j ov t n old hj).2
      exact ⟨hmem, by omega⟩
  · obtain ⟨node', hb', heq⟩ := hheap b node hb
    rw [heq]
    exact h.fromCache b node' hb'

/-- A step that releases nothing, of a thread that comes to none of these points. -/
lemma single_same (h : s.Single) (hi : s.threads[i]? = some q)
    (hthreads : s'.threads = s.threads.set i p) (hadded : s'.added = s.added)
    (hreleased : s'.released = s.released)
    (hat : ∀ n t o, s'.At n t o → ∃ o', s.At n t o')
    (hunmade : ∀ t, unmade t p ≤ unmade t q) (hreleasing : ∀ t, releasing t p = 0)
    (hannounced : ∀ t, announced t p ≤ announced t q)
    (hself : ∀ ov t n old, p ≠ some (.setNext ov t n old))
    (hheap : ∀ a node, s'.heap a = some node → ∃ node', s.heap a = some node' ∧
      node.fromCache = node'.fromCache) : s'.Single := by
  refine single_move h hi hthreads (fun t ht => hadded ▸ ht) hat (fun n t o hn => ?_)
    (fun b t o hn => ⟨?_, hreleasing t⟩) (fun j ov t n old _ hj => ⟨?_, ?_⟩)
    (fun ov t n old hp => absurd hp (hself ov t n old)) hheap
  · have hle := le_tally (unmade t) hi
    have hzero := (h.made n t o hn).2
    have hp := hunmade t
    omega
  · obtain ⟨_, hn⟩ := hat _ t o hn
    rw [hreleased]
    exact (h.kept b t _ hn).1
  · rw [hreleased]
    exact (h.linking j ov t n old hj).1
  · have hle := le_tally (announced t) hi
    have hzero := (h.linking j ov t n old hj).2
    have hp := hannounced t
    omega

/-- What is known of the call whose reference thread `i` has. -/
lemma State.Owned.carried (howned : s.Owned stack chains) (hcalled : s.Called) {t : Added}
    (hi : s.threads[i]? = some q) (hq : carry t q = 1) :
    t ∈ s.added ∧ t ∉ s.released ∧ ∀ j r, j ≠ i → s.threads[j]? = some r → carry t r = 0 := by
  have hplaces := howned.places t
  have hone := hcalled.count_le t
  have hle := le_tally (carry t) hi
  refine ⟨List.count_pos_iff.mp (by omega), List.count_eq_zero.mp (by omega), fun j r hne hj => ?_⟩
  exact howned.carry_unique hcalled hi hj (Ne.symm hne) hq

/-- The `setNextNode` of a call. -/
lemma single_setNextNode {o : Option NodeRef} {n : NodeRef} (h : s.Single)
    (hi : s.threads[i]? = some (some pt)) (hunmade : ∀ t, unmade t p = 0)
    (hreleasing : ∀ t, releasing t p = 0) (hannounced : ∀ t, announced t p = 0)
    (hself : ∀ ov t n old, p ≠ some (.setNext ov t n old)) :
    (State.goto i (s.setNextNode o n, p)).Single := by
  obtain ⟨nodeCache, heap, heq⟩ := setNextNode_eq s o n
  refine single_same h hi ?_ ?_ ?_ (fun m t o' hat => at_of_setNextNode hat) (fun t => ?_) hreleasing
    (fun t => ?_) hself fun b node hb => heap_of_setNextNode s o n hb
  · rw [heq]
    rfl
  · rw [heq]
    rfl
  · rw [heq]
    rfl
  · rw [hunmade]
    exact Nat.zero_le _
  · rw [hannounced]
    exact Nat.zero_le _

/-- A new node is no other one. -/
lemma single_createNode {ov : Overload} {t : Added} {n : NodeRef} (hcalled : s.Called)
    (howned : s.Owned stack chains) (h : s.Single) (hi : s.threads[i]? = some (some (.createNode ov t)))
    (hfew : s.lastAssignedCacheIndex + 1 < 2 ^ 32) (hcreate : s.createNode t a = some (s₁, n)) :
    (State.goto i (s₁, some (.exchangeHead ov t n))).Single := by
  obtain ⟨hmem, hnot, hothers⟩ := howned.carried hcalled hi (if_pos rfl)
  obtain ⟨-, hnew, hsame⟩ := assigned_createNode hcreate hfew
  have hheap := heap_of_createNode hcreate
  have hone : ∀ m o, ¬ s.At m t o := by
    intro m o hat
    have hle := le_tally (unmade t) hi
    have hzero := (h.made m t o hat).2
    simp only [unmade, if_true] at hle
    omega
  -- the nodes are the old ones and the one of this call
  have hback : ∀ m t' o, s₁.At m t' o → (m = n ∧ t' = t) ∨ (t' ≠ t ∧ s.At m t' o) := by
    intro m t' o hat
    by_cases hm : m = n
    · subst hm
      exact .inl ⟨rfl, (hat.unique hnew).1⟩
    · obtain ⟨node, hnode, ht, ho⟩ := hat
      have hold : s.At m t' o := ⟨node, (hsame m hm).symm.trans hnode, ht, ho⟩
      exact .inr ⟨fun heq => hone m o (heq ▸ hold), hold⟩
  have hzero : ∀ {w : Option (Point E) → ℕ}, (∀ r, w r ≤ carry t r) →
      w (some (.exchangeHead ov t n)) = 0 →
      tally w (s.threads.set i (some (.exchangeHead ov t n))) = 0 := by
    intro w hle hself
    refine tally_eq_zero.mpr fun r hr => ?_
    obtain ⟨j, hj⟩ := List.getElem?_of_mem hr
    by_cases hne : j = i
    · subst hne
      rw [List.getElem?_set_self (List.getElem?_eq_some_iff.mp hi).1] at hj
      obtain rfl := Option.some.inj hj
      exact hself
    · rw [List.getElem?_set_ne (Ne.symm hne)] at hj
      exact Nat.le_zero.mp ((hle r).trans (hothers j r hne hj).le)
  have hunmade : ∀ t', tally (unmade t') (s.threads.set i (some (.exchangeHead ov t n)))
      ≤ tally (unmade t') s.threads := by
    intro t'
    have hset := tally_set (unmade t') (some (.exchangeHead ov t n)) hi
    simp only [unmade] at hset
    omega
  obtain ⟨nodeCache, heap, rfl⟩ := createNode_eq hcreate
  refine ⟨fun m m' t' o o' hm hm' => ?_, fun m t' o hm => ?_, fun b t' o hb => ?_,
    fun j ov' t' m old hj => ?_, fun b node hb => ?_⟩
  · rcases hback m t' o hm with ⟨rfl, rfl⟩ | ⟨hne, hm⟩
    · rcases hback m' t' o' hm' with ⟨rfl, -⟩ | ⟨hne, -⟩
      · rfl
      · exact absurd rfl hne
    · rcases hback m' t' o' hm' with ⟨-, rfl⟩ | ⟨-, hm'⟩
      · exact absurd rfl hne
      · exact h.unique m m' t' o o' hm hm'
  · rcases hback m t' o hm with ⟨-, rfl⟩ | ⟨-, hm⟩
    · exact ⟨hmem, hzero (unmade_le_carry t') rfl⟩
    · obtain ⟨hmem', hzero'⟩ := h.made m t' o hm
      exact ⟨hmem', Nat.le_zero.mp ((hunmade t').trans hzero'.le)⟩
  · rcases hback (.heap b) t' o hb with ⟨-, rfl⟩ | ⟨-, hb⟩
    · exact ⟨hnot, hzero (releasing_le_carry t') rfl⟩
    · have hset := tally_set (releasing t') (some (.exchangeHead ov t n)) hi
      obtain ⟨hnot', hzero'⟩ := h.kept b t' o hb
      rw [hzero'] at hset
      exact ⟨hnot', hset⟩
  · rcases getElem?_goto hj with ⟨-, heq⟩ | ⟨-, hj⟩
    · cases heq
    · have hset := tally_set (announced t') (some (.exchangeHead ov t n)) hi
      obtain ⟨hnot', hzero'⟩ := h.linking j ov' t' m old hj
      rw [hzero'] at hset
      exact ⟨hnot', hset⟩
  · rcases hheap b node hb with hold | hfrom
    · exact h.fromCache b node hold
    · exact hfrom

lemma single_advance (hcalled : s.Called) (howned : s.Owned stack chains) (h : s.Single)
    (hi : s.threads[i]? = some (some pt)) (hadvances : Advances s a pt s₁ p) :
    (State.goto i (s₁, p)).Single := by
  obtain ⟨c, hc, hfollows⟩ := howned.chain hi
  have hsame : ∀ {n t o}, s.At n t o → ∃ o', s.At n t o' := fun hat => ⟨_, hat⟩
  have hheap : ∀ {b node}, s.heap b = some node →
      ∃ node', s.heap b = some node' ∧ node.fromCache = node'.fromCache := fun hb => ⟨_, hb, rfl⟩
  -- who releases `t'` is alone with it
  have hreleased : ∀ {t t' : Added}, t' ∉ s.released → t' ≠ t → t' ∉ s.released ++ [t] := by
    intro t t' hold hne hmem
    rcases List.mem_append.mp hmem with hmem | hmem
    · exact hold hmem
    · exact hne (List.mem_singleton.mp hmem)
  cases hadvances with
  | wait | tooLate | stillWaiting | notWaiting | setException | clearWaiting | pause =>
    exact single_same h hi rfl rfl rfl (fun _ _ _ => hsame) (fun _ => le_rfl) (fun _ => rfl)
      (fun _ => Nat.zero_le _) (by simp) fun _ _ => hheap
  | late t | fail t n next =>
    obtain ⟨failed, heq⟩ := dependentTaskFailed_eq s t
    rw [heq]
    exact single_same h hi rfl rfl rfl (fun _ _ _ => hsame) (fun _ => le_rfl) (fun _ => rfl)
      (fun _ => le_rfl) (by simp) fun _ _ => hheap
  | lateRelease t =>
    refine single_move h hi rfl (fun _ => id) (fun _ _ _ => hsame) (fun _ _ _ _ => rfl)
      (fun b t' o hat => ⟨?_, rfl⟩) (fun j ov t' n old hne hj => ⟨?_, rfl⟩) (by simp)
      fun _ _ => hheap
    · refine hreleased (h.kept b t' o hat).1 fun heq => ?_
      subst heq
      -- a call that came too late has made no node
      have hle := le_tally (unmade t') hi
      have hzero := (h.made (.heap b) t' o hat).2
      simp only [unmade, if_true] at hle
      omega
    · refine hreleased (h.linking j ov t' n old hj).1 fun heq => ?_
      subst heq
      exact hne (hcalled.unique hj hi (if_pos rfl) (if_pos rfl))
  | createNode o t n hcreate =>
    refine single_createNode hcalled howned h hi ?_ hcreate
    have hle := le_tally uncreated hi
    have hbound := hcalled.index
    have hlt := hcalled.few
    simp only [uncreated] at hle
    omega
  | exchangeHead o t n =>
    obtain ⟨-, hnot, hothers⟩ := howned.carried hcalled hi (if_pos rfl)
    refine single_move h hi rfl (fun _ => id) (fun _ _ _ => hsame) (fun _ _ _ _ => rfl)
      (fun b t' o' hat => ⟨(h.kept b t' o' hat).1, rfl⟩)
      (fun j ov t' m old _ hj => ⟨(h.linking j ov t' m old hj).1, rfl⟩) ?_ fun _ _ => hheap
    intro ov t' m old heq
    obtain ⟨-, rfl, -, -⟩ := by simpa using heq
    refine ⟨hnot, tally_eq_zero.mpr fun r hr => ?_⟩
    obtain ⟨j, hj⟩ := List.getElem?_of_mem hr
    by_cases hne : j = i
    · subst hne
      obtain rfl := Option.some.inj (hi.symm.trans hj)
      rfl
    · have hle := announced_le_carry t r
      have hzero := hothers j r hne hj
      omega
  | link | linkFirst | linkFirstTask | linkAgain =>
    exact single_setNextNode h hi (fun _ => rfl) (fun _ => rfl) (fun _ => rfl) (by simp)
  | exchangeNull =>
    refine single_same h hi rfl rfl rfl (fun _ _ _ => hsame) (fun t => ?_) (fun t => ?_)
      (fun t => ?_) (fun ov t n old => ?_) fun _ _ => hheap
    all_goals cases s.head <;> first | exact le_rfl | rfl | simp
  | readNext n node hnode hnext =>
    refine single_move h hi rfl (fun _ => id) (fun _ _ _ => hsame) (fun _ _ _ _ => rfl)
      (fun b t' o' hat => ⟨(h.kept b t' o' hat).1, rfl⟩)
      (fun j ov t' m old hne hj => ⟨(h.linking j ov t' m old hj).1, ?_⟩) (by simp) fun _ _ => hheap
    -- a node that is looked at is linked
    refine if_neg fun heq => ?_
    subst heq
    cases c with
    | nil => cases hfollows
    | cons x rest =>
      obtain rfl : x.1 = n := Option.some.inj hfollows
      obtain ⟨o, node', hnode', -, -⟩ :=
        (howned.taken _ (List.mem_of_getElem? hc)).linked List.mem_cons_self
      obtain rfl := Option.some.inj ((node_of_assigned hnode').symm.trans hnode)
      obtain ⟨d, hd⟩ : ∃ d, chains[j]? = some d :=
        ⟨_, List.getElem?_eq_getElem (howned.length ▸ (List.getElem?_eq_some_iff.mp hj).1)⟩
      obtain ⟨-, hself, -⟩ := howned.follows j _ d hj hd
      obtain rfl := h.unique _ _ _ _ _ ⟨node', hnode', rfl, rfl⟩ hself
      exact hnext (State.At.unique ⟨node', hnode', rfl, rfl⟩ hself).2
  | free t n next node hnode =>
    obtain ⟨-, o, hat, -⟩ := hfollows
    obtain ⟨heap, heq⟩ := free_eq s n node.fromCache
    have hframe : (if node.fromCache then s else s.delete n).threads = s.threads ∧
        (if node.fromCache then s else s.delete n).added = s.added ∧
        (if node.fromCache then s else s.delete n).released = s.released := by
      rw [heq]
      exact ⟨rfl, rfl, rfl⟩
    obtain ⟨hthreads, hadded, hrel⟩ := hframe
    refine single_move h hi (congrArg (List.set · i _) hthreads) (fun t' ht' => ?_)
      (fun _ _ _ hat' => ⟨_, at_of_free hat'⟩) (fun _ _ _ _ => rfl) (fun b t' o' hat' => ⟨?_, ?_⟩)
      (fun j ov t' m old _ hj => ⟨?_, ?_⟩) (by simp)
      fun b node' hb => ⟨node', heap_of_free s n _ hb, rfl⟩
    · show t' ∈ (if node.fromCache then s else s.delete n).added
      rw [hadded]
      exact ht'
    · show t' ∉ (if node.fromCache then s else s.delete n).released
      rw [hrel]
      exact (h.kept b t' o' (at_of_free hat')).1
    · refine if_neg fun htask => ?_
      subst htask
      have hfree : (if node.fromCache then s else s.delete n).At (.heap b) t o' := hat'
      -- its node is the one that is deleted here
      obtain rfl := h.unique _ _ _ _ _ hat (at_of_free hfree)
      rw [h.fromCache b node hnode] at hfree
      obtain ⟨node', hnode', -⟩ := hfree
      have hnone : (s.delete (.heap b)).assigned (.heap b) = none := Function.update_self _ _ _
      cases hnone.symm.trans hnode'
    · show t' ∉ (if node.fromCache then s else s.delete n).released
      rw [hrel]
      exact (h.linking j ov t' m old hj).1
    · have hle := le_tally (announced t') hi
      have hzero := (h.linking j ov t' m old hj).2
      refine if_neg fun htask => ?_
      subst htask
      simp only [announced, if_true] at hle
      omega
  | release t next =>
    have hnext : ∀ t', unmade t' (next.map (Point.readNext (E := E))) = 0 ∧
        releasing t' (next.map (Point.readNext (E := E))) = 0 ∧
        announced t' (next.map (Point.readNext (E := E))) = 0 := by
      intro t'
      cases next <;> exact ⟨rfl, rfl, rfl⟩
    have hle := le_tally (releasing t) hi
    have hle' := le_tally (announced t) hi
    simp only [releasing, announced, if_true] at hle hle'
    refine single_move h hi rfl (fun _ => id) (fun _ _ _ => hsame) (fun _ t' _ _ => (hnext t').1)
      (fun b t' o' hat => ⟨?_, (hnext t').2.1⟩) (fun j ov t' m old hne hj => ⟨?_, (hnext t').2.2⟩)
      (fun ov t' m old heq => ?_) fun _ _ => hheap
    · refine hreleased (h.kept b t' o' hat).1 fun heq => ?_
      subst heq
      have hzero := (h.kept b t' o' hat).2
      omega
    · refine hreleased (h.linking j ov t' m old hj).1 fun heq => ?_
      subst heq
      have hzero := (h.linking j ov t' m old hj).2
      omega
    · cases next <;> cases heq

/-- A step that leaves the nodes alone, and after which every thread is where it was, or in no call,
or about to take the list. -/
lemma single_outside (h : s.Single) (hassigned : s'.assigned = s.assigned)
    (hheap : s'.heap = s.heap) (hadded : s'.added = s.added) (hreleased : s'.released = s.released)
    (hthreads : ∀ (j : ℕ) ov t n old, s'.threads[j]? = some (some (.setNext ov t n old)) →
      s.threads[j]? = some (some (.setNext ov t n old)))
    (htally : ∀ w : Option (Point E) → ℕ, w none = 0 → w (some .exchangeNull) = 0 →
      tally w s'.threads = tally w s.threads) : s'.Single := by
  refine ⟨fun n m t o o' hn hm => ?_, fun n t o hn => ?_, fun b t o hb => ?_,
    fun j ov t n old hj => ?_, fun b node hb => ?_⟩
  · exact h.unique n m t o o' ((at_congr hassigned).mp hn) ((at_congr hassigned).mp hm)
  · rw [hadded, htally _ rfl rfl]
    exact h.made n t o ((at_congr hassigned).mp hn)
  · rw [hreleased, htally _ rfl rfl]
    exact h.kept b t o ((at_congr hassigned).mp hb)
  · rw [hreleased, htally _ rfl rfl]
    exact h.linking j ov t n old (hthreads j ov t n old hj)
  · rw [hheap] at hb
    exact h.fromCache b node hb

/-- Each step keeps one node for each call. -/
lemma single_step {b : Label E} (hcalled : s.Called) (hwaited : s.Waited) (hawaited : s.Awaited)
    (hplaced : s.Placed) (h : s.Single) (hstep : step s b = some s') : s'.Single := by
  cases steps hstep with
  | fork =>
    refine single_outside h rfl rfl rfl rfl (fun j ov t n old hj => getElem?_fork hj) fun w hw _ => ?_
    show tally w (s.threads ++ [none]) = _
    rw [tally_append, tally_cons, tally_nil, hw, Nat.add_zero]
  | add i o t hi hnumber =>
    have hnew : ∀ {n o}, ¬ s.At n t o := by
      intro n o hat
      have hlt := hcalled.number t (h.made n t o hat).1
      omega
    refine single_move h hi rfl (fun t' ht' => List.mem_append_left _ ht') (fun _ _ _ hat => ⟨_, hat⟩)
      (fun n t' o' hat => if_neg fun heq => hnew (heq ▸ hat))
      (fun b t' o' hat => ⟨(h.kept b t' o' hat).1, rfl⟩)
      (fun j ov t' n old _ hj => ⟨(h.linking j ov t' n old hj).1, rfl⟩) nofun
      fun b node hb => ⟨node, hb, rfl⟩
  | doneWaiting i e hi =>
    exact single_same h hi rfl rfl rfl (fun _ _ _ hat => ⟨_, hat⟩) (fun _ => Nat.zero_le _)
      (fun _ => rfl) (fun _ => Nat.zero_le _) nofun fun b node hb => ⟨node, hb, rfl⟩
  | reset hidle hdone =>
    obtain ⟨-, hhead⟩ := head_eq_none hwaited hawaited hidle hdone
    have hrel := hplaced.released_of_idle hidle hhead
    -- everything is released, so there is no node on the heap, and the cache starts again
    have hempty : ∀ n t o, ¬ s.reset.At n t o := by
      rintro n t o ⟨node, hnode, ht, ho⟩
      cases n with
      | cached k =>
        rw [assigned_cached_zero rfl k] at hnode
        cases hnode
      | heap b =>
        have hat : s.At (.heap b) t o := ⟨node, hnode, ht, ho⟩
        have hpos := List.count_pos_iff.mpr (h.made _ t o hat).1
        exact (h.kept b t o hat).1 (List.count_pos_iff.mp (by rw [hrel t]; exact hpos))
    refine ⟨fun n m t o o' hn => absurd hn (hempty n t o), fun n t o hn => absurd hn (hempty n t o),
      fun b t o hb => absurd hb (hempty _ t o), fun j ov t n old hj => ?_, h.fromCache⟩
    cases hidle _ (List.mem_of_getElem? hj)
  | retain | letGo => exact single_outside h rfl rfl rfl rfl (fun _ _ _ _ _ hj => hj) fun _ _ _ => rfl
  | advance i a hi hadvances =>
    obtain ⟨stack, chains, howned⟩ := hplaced
    exact single_advance hcalled howned h hi hadvances

lemma single_init (k : ℕ) : (init k : State E).Single := by
  have hempty : ∀ n t o, ¬ (init k : State E).At n t o := by
    rintro n t o ⟨node, hnode, -⟩
    cases n with
    | cached j =>
      rw [assigned_cached_zero rfl j] at hnode
      cases hnode
    | heap b => cases hnode
  exact ⟨fun n m t o o' hn => absurd hn (hempty n t o), fun n t o hn => absurd hn (hempty n t o),
    fun b t o hb => absurd hb (hempty _ t o), fun j ov t n old hj => by simp [init] at hj, nofun⟩

end UnifyPrototype.WaitingTaskList
