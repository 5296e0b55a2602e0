import UnifyPrototype.WaitingTaskList.Nodes

/-!
# The reference of every call is in one place

Each operation moves a reference from one place to the next. The exception is the second
`setNextNode` of `add(WaitingTaskHolder)`, which writes a node that an announcing thread may have
deleted; it does no harm as long as the node is still there.
-/

namespace UnifyPrototype.WaitingTaskList

open UnifyPrototype.Utils

variable {E : Type} {s s' s₁ : State E} {a i : ℕ} {pt : Point E} {p q : Option (Point E)}
  {stack stack' c c' : List (NodeRef × Added)} {chains : List (List (NodeRef × Added))}

/-! ## The condition -/

/-- When `add(WaitingTaskHolder)` writes its node for the second time, the node is in the cache, or
no `announce` has deleted it since the call made it. -/
def writesOwnNode (s : State E) : Label E → Bool
  | .advance i _ =>
    match s.threads[i]? with
    | some (some (.setNextAgain t (.heap a))) => (s.heap a).any (·.added = t)
    | _ => true
  | _ => true

/-- Every second write is of the node that the call has made. -/
abbrev Permitted (s : State E) (b : Label E) : Prop :=
  writesOwnNode s b = true

lemma heap_of_permitted {t : Added} {b : ℕ} (h : Permitted s (.advance i a))
    (hi : s.threads[i]? = some (some (.setNextAgain t (.heap b)))) :
    ∃ node, s.heap b = some node ∧ node.added = t := by
  simp only [Permitted, writesOwnNode, hi] at h
  obtain ⟨node, hnode, ht⟩ := (Option.any_eq_true _ _).mp h
  exact ⟨node, hnode, by simpa using ht⟩

/-- Writing what is there. -/
lemma assigned_setNextNode_of_at {n : NodeRef} {t : Added} {o : Option NodeRef}
    (h : s.At n t o) : (s.setNextNode o n).assigned = s.assigned := by
  obtain ⟨node, hnode, -, rfl⟩ := h
  ext1 n'
  by_cases hne : n' = n
  · rw [hne, assigned_setNextNode_self, hnode]
    rfl
  · exact assigned_setNextNode_of_ne s _ hne

/-! ## One operation -/

/-- Some lists account for the references. -/
def State.Placed (s : State E) : Prop :=
  ∃ stack chains, s.Owned stack chains

/-- An operation that leaves the nodes alone, of a thread that has taken nothing new. -/
lemma placed_same (hcalled : s.Called) (howned : s.Owned stack chains)
    (hi : s.threads[i]? = some q) (hc : chains[i]? = some c)
    (hthreads : s'.threads = s.threads.set i p) (hassigned : s'.assigned = s.assigned)
    (hq : ∀ ov t n old, q ≠ some (.setNext ov t n old)) (hhead : s'.head = s.head)
    (hfollows : s'.Follows p c)
    (hcarry : ∀ t, carry t p + s'.released.count t + s.added.count t
      = carry t q + s.released.count t + s'.added.count t) : s'.Placed := by
  refine ⟨stack, _, howned.moved hcalled hi hc (.of_assigned hthreads hassigned hq)
    (hhead.trans howned.head) (fun hs hc => ⟨hs, hc⟩) hfollows fun t => ?_⟩
  have hsum := hcarry t
  omega

/-- A thread that has taken nothing and takes nothing. -/
lemma placed_idle (hcalled : s.Called) (howned : s.Owned stack chains)
    (hi : s.threads[i]? = some q) (hc : chains[i]? = some c)
    (hthreads : s'.threads = s.threads.set i p) (hassigned : s'.assigned = s.assigned)
    (hq : ∀ ov t n old, q ≠ some (.setNext ov t n old)) (hhead : s'.head = s.head)
    (hbefore : s.Follows q c → c = []) (hafter : s'.Follows p [])
    (hcarry : ∀ t, carry t p + s'.released.count t + s.added.count t
      = carry t q + s.released.count t + s'.added.count t) : s'.Placed := by
  obtain rfl := hbefore (howned.follows i q c hi hc)
  exact placed_same hcalled howned hi hc hthreads hassigned hq hhead hafter hcarry

/-- The first `setNextNode` of a call. -/
lemma placed_setNext (hcalled : s.Called) (howned : s.Owned stack chains) {ov : Overload}
    {t : Added} {n : NodeRef} {old : Option NodeRef}
    (hi : s.threads[i]? = some (some (.setNext ov t n old))) (hc : chains[i]? = some c)
    (hafter : s.At n t (some n) → (s.setNextNode old n).At n t old →
      (State.goto i (s.setNextNode old n, p)).Follows p [])
    (hcarry : ∀ t, carry t p = 0) : (State.goto i (s.setNextNode old n, p)).Placed := by
  obtain ⟨rfl, hat, hne⟩ := howned.follows i _ c hi hc
  -- the node of this thread leads to the old head now, and the other nodes stay
  have hset : (s.setNextNode old n).At n t old := by
    obtain ⟨node, hnode, ht, -⟩ := hat
    refine ⟨{ node with next := old }, ?_, ht, rfl⟩
    rw [assigned_setNextNode_self, hnode]
    rfl
  obtain ⟨nodeCache, heap, heq⟩ := setNextNode_eq s old n
  have hframe : (s.setNextNode old n).threads = s.threads ∧ (s.setNextNode old n).head = s.head ∧
      (s.setNextNode old n).released = s.released ∧ (s.setNextNode old n).added = s.added := by
    rw [heq]
    exact ⟨rfl, rfl, rfl, rfl⟩
  obtain ⟨hthreads, hhead, hreleased, hadded⟩ := hframe
  have hmoved : Moved s (State.goto i (s.setNextNode old n, p)) i
      (some (.setNext ov t n old)) p := by
    refine ⟨congrArg (List.set · i p) hthreads, fun n' t' o h => ?_, fun n' t' o h => ?_,
      fun ov' t' n' old' heq' hat' => ?_⟩
    · by_cases hn : n' = n
      · subst hn
        obtain ⟨rfl, -⟩ := h.unique hat
        exact .inr (.inl ⟨ov, old, rfl⟩)
      · obtain ⟨node, hnode, ht, ho⟩ := h
        exact .inl ⟨node, (assigned_setNextNode_of_ne s old hn).trans hnode, ht, ho⟩
    · by_cases hn : n' = n
      · subst hn
        obtain ⟨rfl, -⟩ := State.At.unique (s := s.setNextNode old n') h hset
        exact .inr (.inr ⟨ov, old, rfl⟩)
      · obtain ⟨node, hnode, ht, ho⟩ := h
        exact .inl ⟨node, (assigned_setNextNode_of_ne s old hn).symm.trans hnode, ht, ho⟩
    · obtain ⟨-, rfl, rfl, rfl⟩ := by simpa using heq'
      exact hset
  refine ⟨stack, _, howned.moved hcalled hi hc hmoved (hhead.trans howned.head)
    (fun hs hnil => ⟨hs, hnil⟩) (hafter hat hset) fun t' => ?_⟩
  show carry t' p + _ + _ + (s.setNextNode old n).released.count t' + _
    = 0 + _ + _ + _ + (s.setNextNode old n).added.count t'
  rw [hreleased, hadded, hcarry t']

/-- A thread that has read a chain follows it. -/
lemma follows_readNext {next : Option NodeRef} (h : next = c.head?.map Prod.fst) :
    s.Follows (next.map .readNext) c := by
  cases c with
  | nil =>
    subst h
    rfl
  | cons x c =>
    subst h
    rfl

/-- An operation takes each task from one place to the next. -/
lemma placed_advance (hcalled : s.Called) (howned : s.Owned stack chains)
    (hi : s.threads[i]? = some (some pt)) (hpermitted : Permitted s (.advance i a))
    (hadvances : Advances s a pt s₁ p) : (State.goto i (s₁, p)).Placed := by
  have hlt := (List.getElem?_eq_some_iff.mp hi).1
  obtain ⟨c, hc, hfollows⟩ := howned.chain hi
  have hself : ∀ p : Option (Point E), (s.threads.set i p)[i]? = some p := fun p =>
    List.getElem?_set_self hlt
  cases hadvances with
  | wait | tooLate | stillWaiting | notWaiting | setException | clearWaiting =>
    exact placed_idle hcalled howned hi hc rfl rfl (by simp) rfl id rfl fun _ => rfl
  | late t =>
    obtain ⟨failed, heq⟩ := dependentTaskFailed_eq s t
    rw [heq]
    exact placed_idle hcalled howned hi hc rfl rfl (by simp) rfl id rfl fun _ => rfl
  | lateRelease t =>
    refine placed_idle hcalled howned hi hc rfl rfl (by simp) rfl id rfl fun t' => ?_
    simp only [State.goto, State.release, carry, List.count_append, List.count_singleton, beq_iff_eq]
    omega
  | createNode o t n hcreate =>
    obtain rfl : c = [] := hfollows
    have hindex : s.lastAssignedCacheIndex + 1 < 2 ^ 32 := by
      have hle := le_tally uncreated hi
      have hbound := hcalled.index
      have hfew := hcalled.few
      simp only [uncreated] at hle
      omega
    obtain ⟨hfree, hat, hsame⟩ := assigned_createNode hcreate hindex
    obtain ⟨nodeCache, heap, rfl⟩ := createNode_eq hcreate
    refine ⟨stack, _, howned.moved hcalled hi hc ⟨rfl, fun n' t' o' h => ?_, fun n' t' o' h => ?_,
      by simp⟩ howned.head (fun hs hnil => ⟨hs, hnil⟩) ⟨rfl, hat⟩ fun t' => rfl⟩
    · obtain ⟨node, hnode, ht, ho⟩ := h
      have hne : n' ≠ n := by
        rintro rfl
        cases hfree.symm.trans hnode
      exact .inl ⟨node, (hsame n' hne).trans hnode, ht, ho⟩
    · by_cases hne : n' = n
      · subst hne
        obtain ⟨rfl, -⟩ := State.At.unique h hat
        exact .inr (.inl ⟨o, rfl⟩)
      · obtain ⟨node, hnode, ht, ho⟩ := h
        exact .inl ⟨node, (hsame n' hne).symm.trans hnode, ht, ho⟩
  | exchangeHead o t n =>
    obtain ⟨rfl, hat⟩ := hfollows
    have hne : s.head ≠ some n := by
      rw [howned.head]
      intro heq
      cases hstack : stack with
      | nil => rw [hstack] at heq; cases heq
      | cons x l =>
        -- the node would be on the list already
        rw [hstack] at heq
        obtain rfl : x.1 = n := Option.some.inj heq
        have hmem : x ∈ stack := hstack ▸ List.mem_cons_self ..
        obtain ⟨o', hat'⟩ := howned.onList.linked hmem
        obtain ⟨rfl, -⟩ := hat.unique hat'
        exact absurd (howned.carry_eq_zero hcalled hi (.inl hmem)) (by simp [carry])
    refine ⟨(n, t) :: stack, _, howned.moved hcalled hi hc (.of_assigned rfl rfl (by simp)) rfl
      (fun hs hnil => ⟨⟨.inr ⟨hat, i, o, ?_⟩, hs⟩, hnil⟩) ⟨rfl, hat, hne⟩ fun t' => ?_⟩
    · rw [← howned.head]
      exact hself _
    · simp only [carry, tally_cons, queued, State.goto]
      omega
  | link o t n m => exact placed_setNext hcalled howned hi hc (fun _ _ => rfl) fun _ => rfl
  | linkFirst t n =>
    refine placed_setNext hcalled howned hi hc (fun _ hset => ⟨rfl, fun o hat => ?_, fun k hk => ?_⟩)
      fun _ => rfl
    · exact (State.At.unique (s := s.setNextNode none n) hat hset).2
    · exact hset
  | linkFirstTask t n => exact placed_setNext hcalled howned hi hc (fun _ _ => rfl) fun _ => rfl
  | linkAgain t n =>
    obtain ⟨rfl, hnone, hcached⟩ := hfollows
    have hat : s.At n t none := by
      cases n with
      | cached k => exact hcached k rfl
      | heap b =>
        obtain ⟨node, hnode, ht⟩ := heap_of_permitted hpermitted hi
        exact ⟨node, hnode, ht, hnone _ ⟨node, hnode, ht, rfl⟩⟩
    have hassigned := assigned_setNextNode_of_at hat
    obtain ⟨nodeCache, heap, heq⟩ := setNextNode_eq s none n
    rw [heq] at hassigned ⊢
    exact placed_same hcalled howned hi hc rfl hassigned (by simp) rfl rfl fun _ => rfl
  | exchangeNull =>
    obtain rfl : c = [] := hfollows
    refine ⟨[], _, howned.moved hcalled hi hc (.of_assigned rfl rfl (by simp)) rfl
      (fun hs _ => ⟨trivial, hs⟩) (follows_readNext howned.head) fun t' => ?_⟩
    have hzero : carry t' (s.head.map (Point.readNext (E := E))) = 0 := by
      cases s.head <;> rfl
    rw [hzero]
    simp only [carry, tally_nil, State.goto]
    omega
  | pause n => exact placed_same hcalled howned hi hc rfl rfl (by simp) rfl hfollows fun _ => rfl
  | readNext n node hnode hnext =>
    cases c with
    | nil => cases hfollows
    | cons x rest =>
      obtain ⟨m, t⟩ := x
      obtain rfl : m = n := Option.some.inj hfollows
      have hlinked := (howned.taken _ (List.mem_of_getElem? hc)).1
      -- the node is linked, since it does not point to itself
      have hat : s.At m t (rest.head?.map Prod.fst) := by
        rcases hlinked with ⟨hat, -⟩ | ⟨hat, -⟩
        · exact hat
        · obtain ⟨node', hnode', -, hself'⟩ := hat
          obtain rfl := Option.some.inj ((node_of_assigned hnode').symm.trans hnode)
          exact absurd hself' hnext
      obtain ⟨node', hnode', rfl, ho⟩ := hat
      obtain rfl := Option.some.inj ((node_of_assigned hnode').symm.trans hnode)
      refine ⟨stack, _, howned.moved hcalled hi hc (.of_assigned rfl rfl (by simp)) howned.head
        (fun hs hrest => ⟨hs, hrest.2⟩) ⟨ho, _, ⟨node', hnode', rfl, rfl⟩, hnext⟩ fun t' => ?_⟩
      simp only [carry, tally_cons, queued, State.goto]
      omega
  | fail t n next =>
    obtain ⟨failed, heq⟩ := dependentTaskFailed_eq s t
    rw [heq]
    exact placed_same hcalled howned hi hc rfl rfl (by simp) rfl hfollows fun _ => rfl
  | free t n next node hnode =>
    obtain ⟨hnext, o, hat, hself'⟩ := hfollows
    have hmoved : Moved s (State.goto i (if node.fromCache then s else s.delete n,
        some (.release t next))) i (some (.free t n next)) (some (.release t next)) := by
      refine ⟨?_, fun n' t' o' h => ?_, fun n' t' o' h => .inl (at_of_free h), by simp⟩
      · obtain ⟨heap, heq⟩ := free_eq s n node.fromCache
        rw [heq]
        rfl
      · by_cases hne : n' ≠ n ∨ ∃ k, n' = .cached k
        · obtain ⟨node', hnode', ht, ho⟩ := h
          exact .inl ⟨node', (assigned_free s _ hne).trans hnode', ht, ho⟩
        · obtain ⟨rfl, hheap⟩ := not_or.mp hne |>.imp_left not_not.mp
          obtain ⟨rfl, -⟩ := h.unique hat
          cases n' with
          | cached k => exact absurd ⟨k, rfl⟩ hheap
          | heap b => exact .inr (.inr ⟨b, next, rfl, rfl⟩)
    obtain ⟨heap, heq⟩ := free_eq s n node.fromCache
    rw [heq] at hmoved ⊢
    exact ⟨stack, _, howned.moved hcalled hi hc hmoved howned.head (fun hs hc => ⟨hs, hc⟩) hnext
      fun _ => rfl⟩
  | release t next =>
    refine placed_same hcalled howned hi hc rfl rfl (by simp) rfl (follows_readNext hfollows)
      fun t' => ?_
    have hzero : carry t' (next.map (Point.readNext (E := E))) = 0 := by
      cases next <;> rfl
    rw [hzero]
    simp only [State.goto, State.release, carry, List.count_append, List.count_singleton, beq_iff_eq]
    omega

/-! ## Every step -/

lemma State.Chained.mono (hassigned : s'.assigned = s.assigned)
    (hthreads : ∀ (j : ℕ) (pt : Point E), s.threads[j]? = some (some pt) →
      s'.threads[j]? = some (some pt)) {l : List (NodeRef × Added)} (h : s.Chained l) :
    s'.Chained l := by
  induction l with
  | nil => trivial
  | cons x l ih =>
    obtain ⟨n, t⟩ := x
    refine ⟨?_, ih h.2⟩
    rcases h.1 with ⟨hat, hne⟩ | ⟨hat, j, ov, hj⟩
    · exact .inl ⟨(at_congr hassigned).mpr hat, hne⟩
    · exact .inr ⟨(at_congr hassigned).mpr hat, j, ov, hthreads j _ hj⟩

lemma State.Follows.congr (hassigned : s'.assigned = s.assigned) (h : s.Follows p c) :
    s'.Follows p c := by
  have hat : s'.At = s.At := by
    ext n t o
    exact at_congr hassigned
  unfold State.Follows at h ⊢
  rwa [hat]

/-- A thread appears that has nothing. -/
lemma placed_appear (h : s.Placed) (hcarry : ∀ t, carry t p = 0)
    (hfollows : State.Follows { s with threads := s.threads ++ [p] } p []) :
    State.Placed { s with threads := s.threads ++ [p] } := by
  obtain ⟨stack, chains, howned⟩ := h
  have hthreads : ∀ (j : ℕ) (pt : Point E), s.threads[j]? = some (some pt) →
      (s.threads ++ [p])[j]? = some (some pt) := fun j pt hj => by
    rw [List.getElem?_append_left (List.getElem?_eq_some_iff.mp hj).1, hj]
  have hmono : ∀ l, s.Chained l → State.Chained { s with threads := s.threads ++ [p] } l := by
    intro l hl
    refine hl.mono ?_ hthreads
    rfl
  refine ⟨stack, chains ++ [[]], howned.head, ?_, hmono stack howned.onList, ?_, ?_, ?_⟩
  · simp [howned.length]
  · intro c hc
    rcases List.mem_append.mp hc with hc | hc
    · exact hmono c (howned.taken c hc)
    · obtain rfl := List.mem_singleton.mp hc
      trivial
  · -- the new thread is the last one, and so is its empty chain
    intro j q c hj hc
    rcases Nat.lt_or_ge j s.threads.length with hlt | hge
    · rw [List.getElem?_append_left hlt] at hj
      rw [List.getElem?_append_left (howned.length ▸ hlt)] at hc
      exact (howned.follows j q c hj hc).congr rfl
    · rw [List.getElem?_append_right hge, List.getElem?_singleton] at hj
      rw [List.getElem?_append_right (howned.length ▸ hge), howned.length,
        List.getElem?_singleton] at hc
      split at hj
      · rw [if_pos ‹_›] at hc
        obtain rfl := Option.some.inj hj
        obtain rfl := Option.some.inj hc
        exact hfollows
      · cases hj
  · intro t
    have hplaces := howned.places t
    show tally (carry t) (s.threads ++ [p]) + tally (queued t) stack
      + tally (fun c => tally (queued t) c) (chains ++ [[]]) + s.released.count t = s.added.count t
    rw [tally_append, tally_append, tally_cons, tally_cons, hcarry t]
    simpa using hplaces

/-- A step that is not about the nodes, the calls or the references. -/
lemma placed_congr (h : s.Placed) (hthreads : s'.threads = s.threads)
    (hassigned : s'.assigned = s.assigned) (hhead : s'.head = s.head) (hadded : s'.added = s.added)
    (hreleased : s'.released = s.released) : s'.Placed := by
  obtain ⟨stack, chains, howned⟩ := h
  have hsame : ∀ (j : ℕ) (pt : Point E), s.threads[j]? = some (some pt) →
      s'.threads[j]? = some (some pt) := fun j pt hj => hthreads ▸ hj
  refine ⟨stack, chains, hhead.trans howned.head, hthreads ▸ howned.length,
    howned.onList.mono hassigned hsame, fun c hc => (howned.taken c hc).mono hassigned hsame,
    fun j q c hj hc => ?_, fun t => ?_⟩
  · exact (howned.follows j q c (hthreads ▸ hj) hc).congr hassigned
  · rw [hthreads, hadded, hreleased]
    exact howned.places t

/-- When all calls have returned, the list is empty. -/
lemma head_eq_none (hwaited : s.Waited) (hawaited : s.Awaited) (hidle : s.Idle)
    (hdone : s.done ≠ none) : s.waiting = false ∧ s.head = none := by
  have hzero : ∀ w : Option (Point E) → ℕ, w none = 0 → tally w s.threads = 0 := fun w hw =>
    tally_eq_zero.mpr fun q hq => by rw [hidle q hq, hw]
  have hwaiting : s.waiting = false := by
    have hclearing := hwaited.clearing
    rw [hzero clearing rfl] at hclearing
    by_contra hne
    rw [if_pos ⟨hdone, by simpa using hne⟩] at hclearing
    cases hclearing
  refine ⟨hwaiting, ?_⟩
  by_contra hne
  have hpos := hawaited hwaiting hne
  rw [hzero hopeful rfl] at hpos
  exact lt_irrefl _ hpos

/-- And every thread has looked at what it had taken. -/
lemma State.Owned.nil_of_idle (h : s.Owned stack chains) (hidle : s.Idle) (hhead : s.head = none) :
    stack = [] ∧ ∀ c ∈ chains, c = [] := by
  refine ⟨?_, fun c hc => ?_⟩
  · have hnone := h.head.symm.trans hhead
    simpa using hnone
  · obtain ⟨i, hi⟩ := List.getElem?_of_mem hc
    have hlt : i < s.threads.length := h.length ▸ (List.getElem?_eq_some_iff.mp hi).1
    have hthread := List.getElem?_eq_getElem hlt
    rw [hidle _ (List.getElem_mem hlt)] at hthread
    exact h.follows i none c hthread hi

/-- Each step keeps the tasks in place, if it is permitted. -/
lemma placed_step {b : Label E} (hcalled : s.Called) (hwaited : s.Waited) (hawaited : s.Awaited)
    (h : s.Placed) (hpermitted : Permitted s b) (hstep : step s b = some s') : s'.Placed := by
  obtain ⟨stack, chains, howned⟩ := h
  cases steps hstep with
  | fork => exact placed_appear ⟨stack, chains, howned⟩ (fun _ => rfl) rfl
  | add i o t hi =>
    obtain ⟨c, hc, -⟩ := howned.chain hi
    refine placed_idle hcalled howned hi hc rfl rfl nofun rfl id rfl fun t' => ?_
    simp only [State.goto, State.add, carry, List.count_append, List.count_singleton, beq_iff_eq]
    omega
  | doneWaiting i e hi =>
    obtain ⟨c, hc, -⟩ := howned.chain hi
    exact placed_idle hcalled howned hi hc rfl rfl nofun rfl id rfl fun _ => rfl
  | reset hidle hdone =>
    obtain ⟨-, hhead⟩ := head_eq_none hwaited hawaited hidle hdone
    obtain ⟨rfl, hnil⟩ := howned.nil_of_idle hidle hhead
    refine ⟨[], chains, hhead, howned.length, trivial, fun c hc => ?_, fun j q c hj hc => ?_,
      fun t => ?_⟩
    · rw [hnil c hc]
      trivial
    · rw [hnil c (List.mem_of_getElem? hc), hidle q (List.mem_of_getElem? hj)]
      rfl
    · have hcarry : tally (carry t) s.threads = 0 :=
        tally_eq_zero.mpr fun q hq => by rw [hidle q hq]; rfl
      have hqueued : tally (fun c => tally (queued t) c) chains = 0 :=
        tally_eq_zero.mpr fun c hc => by rw [hnil c hc]; rfl
      show tally (carry t) s.threads + 0 + tally (fun c => tally (queued t) c) chains + 0 = 0
      rw [hcarry, hqueued]
  | retain | letGo => exact placed_congr ⟨stack, chains, howned⟩ rfl rfl rfl rfl rfl
  | advance i a hi hadvances => exact placed_advance hcalled howned hi hpermitted hadvances

/-- At the start there are no tasks. -/
lemma placed_init (k : ℕ) : (init k : State E).Placed :=
  ⟨[], [], rfl, rfl, trivial, by simp, by simp, fun _ => rfl⟩

end UnifyPrototype.WaitingTaskList
