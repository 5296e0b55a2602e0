import UnifyPrototype.WaitingTaskList.Single

/-!
# Nobody uses a deleted node

`announce` deletes a node of the heap while the call that made it may still have its second
`setNextNode` to do, and that one writes a deleted node. No other operation does: as long as no call
is about to write its node again when the node is deleted, nobody has a pointer to it left.
-/

namespace UnifyPrototype.WaitingTaskList

open UnifyPrototype.Utils

variable {E : Type} {s s' s₁ : State E} {a i : ℕ} {pt : Point E} {p q : Option (Point E)}
  {stack c l : List (NodeRef × Added)} {chains : List (List (NodeRef × Added))}

/-! ## Pointers -/

/-- The node that a call is working on. -/
def Point.node : Point E → Option NodeRef
  | .exchangeHead _ _ n | .setNext _ _ n _ | .setNextAgain _ n | .readNext n | .fail _ n _
  | .free _ n _ => some n
  | _ => none

/-- The list that a call is going along, or links its node to. -/
def Point.list : Point E → Option NodeRef
  | .setNext _ _ _ old => old
  | .readNext n => some n
  | .fail _ _ next | .free _ _ next | .release _ next => next
  | _ => none

/-- What an `announce` comes to, now or later. -/
inductive State.Listed (s : State E) : NodeRef → Prop
  | head {n : NodeRef} : s.head = some n → s.Listed n
  | thread {i : ℕ} {pt : Point E} {n : NodeRef} : s.threads[i]? = some (some pt) →
      pt.list = some n → s.Listed n
  | next {m n : NodeRef} {node : WaitNode} : s.Listed m → s.node m = some node →
      node.next = some n → s.Listed n

/-- No pointer that is going to be used is to a node that is deleted. Then an address that is used
again is that of the new node for everybody. -/
structure State.NoDangling (s : State E) : Prop where
  working : ∀ (i : ℕ) pt a, s.threads[i]? = some (some pt) → pt.node = some (.heap a) →
    ∃ node, s.heap a = some node
  listed : ∀ a, s.Listed (.heap a) → ∃ node, s.heap a = some node

/-! ## The condition -/

/-- The thread is about to write the node `n` for the second time. -/
def writesAgain (n : NodeRef) : Option (Point E) → Bool
  | some (.setNextAgain _ n') => n' = n
  | _ => false

/-- When a node of the heap is deleted, nobody is about to write it for the second time. -/
def deletesUnused (s : State E) : Label E → Bool
  | .advance i _ =>
    match s.threads[i]? with
    | some (some (.free _ (.heap a) _)) => s.threads.all fun p => !writesAgain (.heap a) p
    | _ => true
  | _ => true

/-- A call that is about to write its node again has it. -/
def State.Rewritable (s : State E) : Prop :=
  ∀ (i : ℕ) t a, s.threads[i]? = some (some (.setNextAgain t (.heap a))) →
    ∃ node, s.heap a = some node ∧ node.added = t

/-- A node that can still be written is there. -/
lemma permitted_of_rewritable (h : s.Rewritable) (b : Label E) : Permitted s b := by
  unfold Permitted writesOwnNode
  split
  next i _ =>
    split
    next t a hi =>
      obtain ⟨node, hnode, ht⟩ := h i t a hi
      simp [hnode, ht]
    next => rfl
  next => rfl

lemma heap_setNextNode (s : State E) (o : Option NodeRef) (n : NodeRef) {b : ℕ} {node : WaitNode}
    (h : s.heap b = some node) :
    ∃ node', (s.setNextNode o n).heap b = some node' ∧ node'.added = node.added := by
  cases n with
  | cached k => exact ⟨node, h, rfl⟩
  | heap k =>
    by_cases hb : b = k
    · subst hb
      refine ⟨{ node with next := o }, ?_, rfl⟩
      show Function.update s.heap b _ b = _
      rw [Function.update_self, h]
      rfl
    · exact ⟨node, (Function.update_of_ne hb _ s.heap).trans h, rfl⟩

/-- A node of the heap stays with its call until it is deleted. -/
lemma Advances.heap (h : Advances s a pt s₁ p) {b : ℕ} {node : WaitNode}
    (hb : s.heap b = some node) :
    (∃ t next, pt = .free t (.heap b) next) ∨
      ∃ node', s₁.heap b = some node' ∧ node'.added = node.added := by
  cases h with
  | wait | tooLate | lateRelease | exchangeHead | stillWaiting | notWaiting | setException
  | clearWaiting | exchangeNull | pause | readNext | release => exact .inr ⟨node, hb, rfl⟩
  | late t | fail t =>
    obtain ⟨failed, heq⟩ := dependentTaskFailed_eq s t
    rw [heq]
    exact .inr ⟨node, hb, rfl⟩
  | createNode o t n hcreate =>
    simp only [State.createNode] at hcreate
    split at hcreate
    · obtain ⟨rfl, -⟩ := Prod.mk.inj (Option.some.inj hcreate)
      exact .inr ⟨node, hb, rfl⟩
    · split at hcreate
      next hfree =>
        obtain ⟨rfl, -⟩ := Prod.mk.inj (Option.some.inj hcreate)
        have hne : b ≠ a := by
          rintro rfl
          cases hfree.symm.trans hb
        exact .inr ⟨node, (Function.update_of_ne hne _ s.heap).trans hb, rfl⟩
      next => cases hcreate
  | link | linkFirst | linkFirstTask | linkAgain => exact .inr (heap_setNextNode s _ _ hb)
  | free t n next node' hnode =>
    cases hfrom : node'.fromCache with
    | true => exact .inr ⟨node, hb, rfl⟩
    | false =>
      cases n with
      | cached k => exact .inr ⟨node, hb, rfl⟩
      | heap k =>
        by_cases hk : b = k
        · subst hk
          exact .inl ⟨t, next, rfl⟩
        · exact .inr ⟨node, (Function.update_of_ne hk _ s.heap).trans hb, rfl⟩

/-- Only `add(WaitingTaskHolder)` writes its node again. -/
lemma Advances.setNextAgain (h : Advances s a pt s₁ p) {t : Added} {n : NodeRef}
    (hp : p = some (.setNextAgain t n)) :
    pt = .setNext .holder t n none ∧ s₁ = s.setNextNode none n := by
  cases h with
  | linkFirst t' n' =>
    obtain ⟨rfl, rfl⟩ := by simpa using hp
    exact ⟨rfl, rfl⟩
  | exchangeNull => cases hhead : s.head <;> simp [hhead] at hp
  | release t' next => cases next <;> cases hp
  | _ => cases hp

/-- No node goes that a thread is going to write, if none is deleted too early. -/
lemma rewritable_step {b : Label E} (howned : s.Owned stack chains) (h : s.Rewritable)
    (hunused : deletesUnused s b = true) (hstep : step s b = some s') : s'.Rewritable := by
  cases steps hstep with
  | fork => exact fun i t a hi => h i t a (getElem?_fork hi)
  | add i o t hi | doneWaiting i e hi =>
    intro j t' a hj
    rcases getElem?_goto hj with ⟨-, hp⟩ | ⟨-, hj⟩
    · cases hp
    · exact h j t' a hj
  | reset hidle =>
    intro i t a hi
    cases hidle _ (List.mem_of_getElem? hi)
  | retain | letGo => exact h
  | @advance s₁ i a pt p hi hadvances =>
    intro j t b hj
    show ∃ node, s₁.heap b = some node ∧ node.added = t
    have hthreads := hadvances.frame.1
    change (s₁.threads.set i p)[j]? = _ at hj
    rw [hthreads] at hj
    rcases getElem?_goto hj with ⟨-, hp⟩ | ⟨-, hj⟩
    · subst hp
      -- the first write was of the node of this call
      obtain ⟨c, hc, hfollows⟩ := howned.chain hi
      obtain ⟨rfl, rfl⟩ := hadvances.setNextAgain rfl
      obtain ⟨-, ⟨node, hnode, rfl, -⟩, -⟩ := hfollows
      exact heap_setNextNode s none _ hnode
    · obtain ⟨node, hnode, rfl⟩ := h j t b hj
      rcases hadvances.heap hnode with ⟨t', next, rfl⟩ | hkeep
      · simp only [deletesUnused, hi, List.all_eq_true] at hunused
        have hno := hunused _ (List.mem_of_getElem? hj)
        simp [writesAgain] at hno
      · exact hkeep

/-! ## Who is on a list -/

lemma State.Chained.of_append {l' : List (NodeRef × Added)} (h : s.Chained (l ++ l')) :
    s.Chained l' := by
  induction l with
  | nil => exact h
  | cons x l ih => exact ih h.2

/-- What comes after a node of a list is on the list. -/
lemma State.Chained.next (h : s.Chained l) {m : NodeRef} {t : Added} (hm : (m, t) ∈ l) :
    ∃ o, s.Linked m t o ∧ ∀ n, o = some n → ∃ t', (n, t') ∈ l := by
  obtain ⟨l₁, l₂, rfl⟩ := List.append_of_mem hm
  refine ⟨l₂.head?.map Prod.fst, h.of_append.1, fun n hn => ?_⟩
  obtain ⟨x, hx, rfl⟩ := Option.map_eq_some_iff.mp hn
  exact ⟨x.2, List.mem_append_right _ (List.mem_cons_of_mem _ (List.mem_of_mem_head? hx))⟩

/-- The node is on the list, or on a part of it that a thread has taken. -/
def OnChain (stack : List (NodeRef × Added)) (chains : List (List (NodeRef × Added)))
    (n : NodeRef) : Prop :=
  ∃ l, (l = stack ∨ l ∈ chains) ∧ ∃ t, (n, t) ∈ l

lemma onChain_of_head {o : Option NodeRef} {n : NodeRef} (hl : l = stack ∨ l ∈ chains)
    (ho : o = l.head?.map Prod.fst) (hn : o = some n) : OnChain stack chains n := by
  subst ho
  obtain ⟨x, hx, rfl⟩ := Option.map_eq_some_iff.mp hn
  exact ⟨l, hl, x.2, List.mem_of_mem_head? hx⟩

lemma carry_le (t : Added) (p : Option (Point E)) : carry t p ≤ calling t p + announced t p := by
  unfold carry
  split
  all_goals first | exact Nat.le_add_right _ _ | exact Nat.le_add_left _ _

lemma calling_le_one (t : Added) (p : Option (Point E)) : calling t p ≤ 1 := by
  unfold calling
  split
  all_goals first | exact Nat.zero_le _ | (split <;> omega)

/-- A call that has published its node and not linked it has it on a list. -/
lemma State.Owned.onChain_setNext (howned : s.Owned stack chains) (hcalled : s.Called)
    (hsingle : s.Single) {ov : Overload} {t : Added} {n : NodeRef} {old : Option NodeRef}
    (hi : s.threads[i]? = some (some (.setNext ov t n old))) :
    ∃ l, (l = stack ∨ l ∈ chains) ∧ ∃ m, (m, t) ∈ l := by
  obtain ⟨c, hc, -, hat, -⟩ := howned.chain hi
  obtain ⟨hnot, hannounced⟩ := hsingle.linking i ov t n old hi
  have hpos := List.count_pos_iff.mpr (hsingle.made n t _ hat).1
  have hzero := List.count_eq_zero.mpr hnot
  -- nobody has the reference
  have hcarry : tally (carry t) s.threads = 0 := by
    refine tally_eq_zero.mpr fun r hr => ?_
    obtain ⟨j, hj⟩ := List.getElem?_of_mem hr
    have hle := le_tally (announced t) hj
    have hboth := carry_le t r
    by_contra hne
    have hcall := calling_le_one t r
    obtain rfl := hcalled.unique hj hi (show calling t r = 1 by omega) (if_pos rfl)
    obtain rfl := Option.some.inj (hj.symm.trans hi)
    exact hne rfl
  have hplaces := howned.places t
  have hone : ∀ l : List (NodeRef × Added), tally (queued t) l ≠ 0 → ∃ m, (m, t) ∈ l := by
    intro l hne
    by_contra hno
    refine hne (tally_eq_zero.mpr fun x hx => if_neg fun heq => hno ⟨x.1, ?_⟩)
    rw [← heq]
    exact hx
  by_cases hstack : tally (queued t) stack = 0
  · have hchains : tally (fun c => tally (queued t) c) chains ≠ 0 := by omega
    have hsome := mt tally_eq_zero.mpr hchains
    push Not at hsome
    obtain ⟨l, hl, hne⟩ := hsome
    exact ⟨l, .inr hl, hone l hne⟩
  · exact ⟨stack, .inl rfl, hone stack hstack⟩

lemma State.Owned.chained (h : s.Owned stack chains) (hl : l = stack ∨ l ∈ chains) :
    s.Chained l := by
  rcases hl with rfl | hl
  · exact h.onList
  · exact h.taken l hl

/-- A node that can be reached from the list or by a thread is on a chain. -/
lemma onChain_of_listed (howned : s.Owned stack chains) (hcalled : s.Called) (hsingle : s.Single)
    {n : NodeRef} (h : s.Listed n) : OnChain stack chains n := by
  induction h with
  | head hhead => exact onChain_of_head (.inl rfl) howned.head hhead
  | @thread i pt n hi hlist =>
    obtain ⟨c, hc, hfollows⟩ := howned.chain hi
    have hmem : c = stack ∨ c ∈ chains := .inr (List.mem_of_getElem? hc)
    cases pt with
    | setNext ov t m old =>
      obtain ⟨-, hat, -⟩ := hfollows
      obtain ⟨l, hl, m', hm'⟩ := howned.onChain_setNext hcalled hsingle hi
      obtain ⟨o, hlinked, hnext⟩ := (howned.chained hl).next hm'
      rcases hlinked with ⟨hat', hne⟩ | ⟨-, j, ov', hj⟩
      · obtain rfl := hsingle.unique _ _ _ _ _ hat hat'
        exact absurd (hat.unique hat').2.symm hne
      · obtain rfl := hcalled.unique hj hi (if_pos rfl) (if_pos rfl)
        obtain ⟨-, -, rfl⟩ := by simpa using hj.symm.trans hi
        exact ⟨l, hl, hnext n hlist⟩
    | readNext m => exact onChain_of_head hmem hfollows.symm hlist
    | fail t m next | free t m next => exact onChain_of_head hmem hfollows.1 hlist
    | release t next => exact onChain_of_head hmem hfollows hlist
    | _ => cases hlist
  | @next m n node _ hnode hnext ih =>
    obtain ⟨l, hl, t, hm⟩ := ih
    obtain ⟨o, hlinked, hsucc⟩ := (howned.chained hl).next hm
    refine ⟨l, hl, ?_⟩
    rcases hlinked with ⟨⟨node', hnode', -, rfl⟩, -⟩ | ⟨⟨node', hnode', -, hself⟩, -⟩
    · obtain rfl := Option.some.inj (hnode.symm.trans (node_of_assigned hnode'))
      exact hsucc n hnext
    · obtain rfl := Option.some.inj (hnode.symm.trans (node_of_assigned hnode'))
      obtain rfl := Option.some.inj (hself.symm.trans hnext)
      exact ⟨t, hm⟩

/-- Every node on a list is there. -/
lemma State.Owned.heap_of_onChain (howned : s.Owned stack chains)
    (h : OnChain stack chains (.heap a)) : ∃ node, s.heap a = some node := by
  obtain ⟨l, hl, t, hm⟩ := h
  obtain ⟨o, node, hnode, -⟩ := (howned.chained hl).linked hm
  exact ⟨node, hnode⟩

/-- Whoever has a pointer to a node finds it. -/
lemma noDangling (hcalled : s.Called) (hplaced : s.Placed) (hsingle : s.Single)
    (hrewritable : s.Rewritable) : s.NoDangling := by
  obtain ⟨stack, chains, howned⟩ := hplaced
  refine ⟨fun i pt b hi hnode => ?_, fun b hlisted => ?_⟩
  · obtain ⟨c, hc, hfollows⟩ := howned.chain hi
    cases pt with
    | exchangeHead ov t n =>
      obtain rfl := Option.some.inj hnode
      obtain ⟨-, node, hnode, -⟩ := hfollows
      exact ⟨node, hnode⟩
    | setNext ov t n old =>
      obtain rfl := Option.some.inj hnode
      obtain ⟨-, ⟨node, hnode, -⟩, -⟩ := hfollows
      exact ⟨node, hnode⟩
    | setNextAgain t n =>
      obtain rfl := Option.some.inj hnode
      obtain ⟨node, hnode, -⟩ := hrewritable i t b hi
      exact ⟨node, hnode⟩
    | readNext n =>
      obtain rfl := Option.some.inj hnode
      exact howned.heap_of_onChain
        (onChain_of_head (.inr (List.mem_of_getElem? hc)) rfl hfollows)
    | fail t n next | free t n next =>
      obtain rfl := Option.some.inj hnode
      obtain ⟨-, o, ⟨node, hnode, -⟩, -⟩ := hfollows
      exact ⟨node, hnode⟩
    | _ => cases hnode
  · exact howned.heap_of_onChain (onChain_of_listed howned hcalled hsingle hlisted)

/-! ## Runs -/

variable {k : ℕ}

/-- In such a run every call has the node that it writes again, so that the references are where they
belong. -/
lemma kept (h : RunsTo step (fun s b => deletesUnused s b = true) (init k) s) :
    s.Placed ∧ s.Single ∧ s.Rewritable := by
  have hknown : ∀ {t : State E}, RunsTo step (fun s b => deletesUnused s b = true) (init k) t →
      t.Called ∧ t.Waited ∧ t.Awaited :=
    fun ht => ⟨called ht.reaches, waited ht.reaches, awaited ht.reaches⟩
  have hrewritable : (init k : State E).Rewritable := fun i t b hi => by simp [init] at hi
  refine h.invariant_of (I := fun s => s.Placed ∧ s.Single ∧ s.Rewritable) hknown
    ⟨placed_init k, single_init k, hrewritable⟩ fun s b s' hk hs hok hstep => ?_
  obtain ⟨hcalled, hwaited, hawaited⟩ := hk
  obtain ⟨hplaced, hsingle, hrewritable⟩ := hs
  refine ⟨?_, single_step hcalled hwaited hawaited hplaced hsingle hstep, ?_⟩
  · exact placed_step hcalled hwaited hawaited hplaced (permitted_of_rewritable hrewritable b) hstep
  · obtain ⟨stack, chains, howned⟩ := hplaced
    exact rewritable_step howned hrewritable hok hstep

/-- A node that is deleted before it is written again. -/
lemma dangling_of_delete {b : Label E} (hsingle : s.Single) (hstep : step s b = some s')
    (h : deletesUnused s b = false) : ¬ s'.NoDangling := by
  cases steps hstep with
  | @advance s₁ i a pt p hi hadvances =>
    simp only [deletesUnused, hi] at h
    split at h
    next t a next hpt =>
      obtain rfl := Option.some.inj (Option.some.inj hpt)
      obtain ⟨q, hq, hagain⟩ := List.all_eq_false.mp h
      obtain ⟨j, hj⟩ := List.getElem?_of_mem hq
      unfold writesAgain at hagain
      split at hagain
      next t' n =>
        obtain rfl : n = .heap a := by simpa using hagain
        have hne : j ≠ i := by
          rintro rfl
          cases hj.symm.trans hi
        cases hadvances with
        | free _ _ _ node hnode =>
          rw [hsingle.fromCache a node hnode]
          intro hno
          obtain ⟨node', hnode'⟩ := hno.working j (.setNextAgain t' (.heap a)) a
            ((List.getElem?_set_ne hne.symm).trans hj) rfl
          have hnone : (s.delete (.heap a)).heap a = none := Function.update_self _ _ _
          cases hnone.symm.trans hnode'
      next => exact absurd rfl hagain
    next => cases h
  | _ => cases h

/-- **Nobody uses a deleted node.** In every state of a run that deletes no node which is still to be
written for the second time, every node that a call works on or an `announce` will come to is there;
and the next step keeps this if and only if it deletes no such node. -/
theorem deleted_not_used (h : RunsTo step (fun s b => deletesUnused s b = true) (init k) s) :
    s.NoDangling ∧ ∀ b s', step s b = some s' → (s'.NoDangling ↔ deletesUnused s b = true) := by
  obtain ⟨hplaced, hsingle, hrewritable⟩ := kept h
  refine ⟨noDangling (called h.reaches) hplaced hsingle hrewritable, fun b s' hstep => ?_⟩
  constructor
  · intro hno
    by_contra hdeletes
    exact dangling_of_delete hsingle hstep (by simpa using hdeletes) hno
  · intro hdeletes
    have hrun := h.tail hdeletes hstep
    obtain ⟨hplaced', hsingle', hrewritable'⟩ := kept hrun
    exact noDangling (called hrun.reaches) hplaced' hsingle' hrewritable'

theorem deleted_not_used_twoEpochs :
    ∃ s : State ℕ, execute step deletesUnused (init 0) twoEpochs = some s ∧ s.heap 0 = none ∧
      s.heap 1 = none ∧ s.NoDangling ∧
      ∀ b s', step s b = some s' → (s'.NoDangling ↔ deletesUnused s b = true) := by
  have hrun : ∃ s : State ℕ, execute step deletesUnused (init 0) twoEpochs = some s ∧
      s.heap 0 = none ∧ s.heap 1 = none := by
    refine ⟨_, rfl, ?_, ?_⟩ <;> decide
  obtain ⟨s, hs, h₀, h₁⟩ := hrun
  exact ⟨s, hs, h₀, h₁, deleted_not_used (.of_execute twoEpochs (fun _ _ h => h) hs)⟩

/-- **A deleted node can be used.** Thread 0 is about to write the node that thread 3 has deleted. -/
theorem deleted_node_used :
    ¬ ∀ (k : ℕ) (bs : List (Label ℕ)) (s : State ℕ), .reset ∉ bs →
      executeAll step (init k) bs = some s → s.NoDangling := by
  have hrun : ∃ s : State ℕ, executeAll step (init 0) (firstAdd ++ deleteNode) = some s ∧
      s.threads[0]? = some (some (.setNextAgain ⟨0, 10, 0⟩ (.heap 0))) ∧ s.heap 0 = none := by
    refine ⟨_, rfl, ?_, ?_⟩ <;> decide
  obtain ⟨s, hs, hthread, hdeleted⟩ := hrun
  intro hall
  obtain ⟨node, hnode⟩ := (hall 0 _ s (by decide) hs).working 0 _ 0 hthread rfl
  cases hdeleted.symm.trans hnode

end UnifyPrototype.WaitingTaskList
