import UnifyPrototype.WaitingTaskList.Model

/-!
# The operations of the list, one by one

What each operation of `add`, `doneWaiting` and `announce` does to the state, and what follows from
it for the numbering of the calls and for the index of the next node.
-/

namespace UnifyPrototype.WaitingTaskList

open UnifyPrototype.Utils

variable {E : Type} {s s' s₁ : State E} {a : ℕ} {pt : Point E} {p : Option (Point E)}

/-! ## Inversion -/

/-- The outcomes of the operation at a point. -/
inductive Advances (s : State E) (a : ℕ) : Point E → State E → Option (Point E) → Prop
  | wait (o : Overload) (t : Added) (hwaiting : s.waiting = true) :
      Advances s a (.readWaiting o t) s (some (.createNode o t))
  | tooLate (o : Overload) (t : Added) (hwaiting : s.waiting = false) :
      Advances s a (.readWaiting o t) s (some (.late t))
  | late (t : Added) : Advances s a (.late t) (s.dependentTaskFailed t) (some (.lateRelease t))
  | lateRelease (t : Added) : Advances s a (.lateRelease t) (s.release t) none
  | createNode {s₁ : State E} (o : Overload) (t : Added) (n : NodeRef)
      (hcreate : s.createNode t a = some (s₁, n)) :
      Advances s a (.createNode o t) s₁ (some (.exchangeHead o t n))
  | exchangeHead (o : Overload) (t : Added) (n : NodeRef) :
      Advances s a (.exchangeHead o t n) { s with head := some n } (some (.setNext o t n s.head))
  | link (o : Overload) (t : Added) (n m : NodeRef) :
      Advances s a (.setNext o t n (some m)) (s.setNextNode (some m) n) none
  | linkFirst (t : Added) (n : NodeRef) :
      Advances s a (.setNext .holder t n none) (s.setNextNode none n) (some (.setNextAgain t n))
  | linkFirstTask (t : Added) (n : NodeRef) :
      Advances s a (.setNext .task t n none) (s.setNextNode none n) (some .recheckWaiting)
  | linkAgain (t : Added) (n : NodeRef) :
      Advances s a (.setNextAgain t n) (s.setNextNode none n) (some .recheckWaiting)
  | stillWaiting (hwaiting : s.waiting = true) : Advances s a .recheckWaiting s none
  | notWaiting (hwaiting : s.waiting = false) :
      Advances s a .recheckWaiting s (some .exchangeNull)
  | setException (e : Option E) :
      Advances s a (.setException e) { s with exceptionPtr := e } (some .clearWaiting)
  | clearWaiting : Advances s a .clearWaiting { s with waiting := false } (some .exchangeNull)
  | exchangeNull : Advances s a .exchangeNull { s with head := none } (s.head.map .readNext)
  | pause (n : NodeRef) (node : WaitNode) (hnode : s.node n = some node)
      (hnext : node.next = some n) : Advances s a (.readNext n) s (some (.readNext n))
  | readNext (n : NodeRef) (node : WaitNode) (hnode : s.node n = some node)
      (hnext : node.next ≠ some n) :
      Advances s a (.readNext n) s (some (.fail node.added n node.next))
  | fail (t : Added) (n : NodeRef) (next : Option NodeRef) :
      Advances s a (.fail t n next) (s.dependentTaskFailed t) (some (.free t n next))
  | free (t : Added) (n : NodeRef) (next : Option NodeRef) (node : WaitNode)
      (hnode : s.node n = some node) :
      Advances s a (.free t n next) (if node.fromCache then s else s.delete n)
        (some (.release t next))
  | release (t : Added) (next : Option NodeRef) :
      Advances s a (.release t next) (s.release t) (next.map .readNext)

/-- An operation of a thread in its branches. -/
lemma advances (h : pt.step s a = some (s₁, p)) : Advances s a pt s₁ p := by
  cases pt with
  | readWaiting o t =>
    obtain ⟨rfl, rfl⟩ := by simpa [Point.step] using h
    split
    next hwaiting => exact .wait o t hwaiting
    next hwaiting => exact .tooLate o t (by simpa using hwaiting)
  | late t =>
    obtain ⟨rfl, rfl⟩ := by simpa [Point.step] using h
    exact .late t
  | lateRelease t =>
    obtain ⟨rfl, rfl⟩ := by simpa [Point.step] using h
    exact .lateRelease t
  | createNode o t =>
    obtain ⟨⟨s₂, n⟩, hcreate, heq⟩ := Option.map_eq_some_iff.mp h
    obtain ⟨rfl, rfl⟩ := Prod.mk.inj heq
    exact .createNode o t n hcreate
  | exchangeHead o t n =>
    obtain ⟨rfl, rfl⟩ := by simpa [Point.step] using h
    exact .exchangeHead o t n
  | setNext o t n old =>
    cases old with
    | some m =>
      obtain ⟨rfl, rfl⟩ := by simpa [Point.step] using h
      exact .link o t n m
    | none =>
      cases o with
      | holder =>
        obtain ⟨rfl, rfl⟩ := by simpa [Point.step] using h
        exact .linkFirst t n
      | task =>
        obtain ⟨rfl, rfl⟩ := by simpa [Point.step] using h
        exact .linkFirstTask t n
  | setNextAgain t n =>
    obtain ⟨rfl, rfl⟩ := by simpa [Point.step] using h
    exact .linkAgain t n
  | recheckWaiting =>
    obtain ⟨rfl, rfl⟩ := by simpa [Point.step] using h
    split
    next hwaiting => exact .stillWaiting hwaiting
    next hwaiting => exact .notWaiting (by simpa using hwaiting)
  | setException e =>
    obtain ⟨rfl, rfl⟩ := by simpa [Point.step] using h
    exact .setException e
  | clearWaiting =>
    obtain ⟨rfl, rfl⟩ := by simpa [Point.step] using h
    exact .clearWaiting
  | exchangeNull =>
    obtain ⟨rfl, rfl⟩ := by simpa [Point.step] using h
    exact .exchangeNull
  | readNext n =>
    obtain ⟨node, hnode, heq⟩ := Option.map_eq_some_iff.mp h
    obtain ⟨rfl, rfl⟩ := Prod.mk.inj heq
    split
    next hnext => exact .pause n node hnode hnext
    next hnext => exact .readNext n node hnode hnext
  | fail t n next =>
    obtain ⟨rfl, rfl⟩ := by simpa [Point.step] using h
    exact .fail t n next
  | free t n next =>
    obtain ⟨node, hnode, heq⟩ := Option.map_eq_some_iff.mp h
    obtain ⟨rfl, rfl⟩ := Prod.mk.inj heq
    exact .free t n next node hnode
  | release t next =>
    obtain ⟨rfl, rfl⟩ := by simpa [Point.step] using h
    exact .release t next

/-- What a step is, with the operation of a thread taken apart. -/
inductive Steps (s : State E) : Label E → State E → Prop
  | fork : Steps s .fork { s with threads := s.threads ++ [none] }
  | add (i : ℕ) (o : Overload) (t : Added) (hi : s.threads[i]? = some none)
      (hnumber : t.number = s.added.length) (hfew : s.added.length + 1 < 2 ^ 32) :
      Steps s (.add i o t.task t.group) (State.goto i (s.add t, some (.readWaiting o t)))
  | doneWaiting (i : ℕ) (e : Option E) (hi : s.threads[i]? = some none) (hdone : s.done = none) :
      Steps s (.doneWaiting i e) (State.goto i ({ s with done := some e }, some (.setException e)))
  | reset (hidle : s.Idle) (hdone : s.done ≠ none) : Steps s .reset s.reset
  | retain (task : ℕ) : Steps s (.retain task)
      { s with
        refCount := Function.update s.refCount task (s.refCount task + 1)
        outside := Function.update s.outside task (s.outside task + 1) }
  | letGo (task : ℕ) (houtside : s.outside task ≠ 0) : Steps s (.letGo task)
      { s with
        refCount := Function.update s.refCount task (s.refCount task - 1)
        outside := Function.update s.outside task (s.outside task - 1) }
  | advance {s₁ : State E} (i a : ℕ) {pt : Point E} {p : Option (Point E)}
      (hi : s.threads[i]? = some (some pt)) (h : Advances s a pt s₁ p) :
      Steps s (.advance i a) (State.goto i (s₁, p))

/-- A step in its branches. -/
lemma steps {b : Label E} (h : step s b = some s') : Steps s b s' := by
  cases b with
  | fork =>
    obtain rfl := Option.some.inj h
    exact .fork
  | add i o task group =>
    simp only [step] at h
    split at h
    next hi =>
      split at h
      next hfew =>
        obtain rfl := Option.some.inj h
        exact .add i o ⟨s.added.length, task, group⟩ hi rfl hfew
      next => cases h
    next => cases h
  | doneWaiting i e =>
    simp only [step] at h
    split at h
    next hi =>
      split at h
      next hdone =>
        obtain rfl := Option.some.inj h
        exact .doneWaiting i e hi hdone
      next => cases h
    next => cases h
  | reset =>
    simp only [step] at h
    split at h
    next hboth =>
      obtain rfl := Option.some.inj h
      exact .reset hboth.1 hboth.2
    next => cases h
  | retain task =>
    obtain rfl := Option.some.inj h
    exact .retain task
  | letGo task =>
    simp only [step] at h
    split at h
    next => cases h
    next houtside =>
      obtain rfl := Option.some.inj h
      exact .letGo task houtside
  | advance i a =>
    simp only [step] at h
    split at h
    next pt hi =>
      obtain ⟨⟨s₁, p⟩, hstep, rfl⟩ := Option.map_eq_some_iff.mp h
      exact .advance i a hi (advances hstep)
    next => cases h

/-! ## What the operations leave alone -/

lemma setNextNode_eq (s : State E) (next : Option NodeRef) (n : NodeRef) :
    ∃ nodeCache heap, s.setNextNode next n = { s with nodeCache := nodeCache, heap := heap } := by
  cases n with
  | cached i => exact ⟨_, s.heap, rfl⟩
  | heap a => exact ⟨s.nodeCache, _, rfl⟩

lemma delete_eq (s : State E) (n : NodeRef) : ∃ heap, s.delete n = { s with heap := heap } := by
  cases n with
  | cached i => exact ⟨s.heap, rfl⟩
  | heap a => exact ⟨_, rfl⟩

lemma createNode_eq {t : Added} {n : NodeRef} (h : s.createNode t a = some (s₁, n)) :
    ∃ nodeCache heap, s₁ = { s with
      lastAssignedCacheIndex := (s.lastAssignedCacheIndex + 1) % 2 ^ 32
      nodeCache := nodeCache
      heap := heap } := by
  simp only [State.createNode] at h
  split at h
  · obtain ⟨rfl, -⟩ := Prod.mk.inj (Option.some.inj h)
    exact ⟨_, _, rfl⟩
  · split at h
    · obtain ⟨rfl, -⟩ := Prod.mk.inj (Option.some.inj h)
      exact ⟨_, _, rfl⟩
    · cases h

lemma dependentTaskFailed_eq (s : State E) (t : Added) :
    ∃ failed, s.dependentTaskFailed t = { s with failed := failed } := by
  unfold State.dependentTaskFailed
  split
  · exact ⟨_, rfl⟩
  · exact ⟨s.failed, rfl⟩

lemma free_eq (s : State E) (n : NodeRef) (b : Bool) :
    ∃ heap, (if b then s else s.delete n) = { s with heap := heap } := by
  cases b with
  | true => exact ⟨s.heap, rfl⟩
  | false => exact delete_eq s n

/-- Operations inside a call. -/
lemma Advances.frame (h : Advances s a pt s₁ p) :
    s₁.threads = s.threads ∧ s₁.added = s.added ∧ s₁.done = s.done ∧ s₁.outside = s.outside := by
  cases h with
  | wait | tooLate | lateRelease | exchangeHead | stillWaiting | notWaiting | setException
  | clearWaiting | exchangeNull | pause | readNext | release => exact ⟨rfl, rfl, rfl, rfl⟩
  | late t | fail t =>
    obtain ⟨failed, heq⟩ := dependentTaskFailed_eq s t
    rw [heq]
    exact ⟨rfl, rfl, rfl, rfl⟩
  | createNode o t n hcreate =>
    obtain ⟨nodeCache, heap, rfl⟩ := createNode_eq hcreate
    exact ⟨rfl, rfl, rfl, rfl⟩
  | link o t n m =>
    obtain ⟨nodeCache, heap, heq⟩ := setNextNode_eq s (some m) n
    rw [heq]
    exact ⟨rfl, rfl, rfl, rfl⟩
  | linkFirst t n | linkFirstTask t n | linkAgain t n =>
    obtain ⟨nodeCache, heap, heq⟩ := setNextNode_eq s none n
    rw [heq]
    exact ⟨rfl, rfl, rfl, rfl⟩
  | free t n next node =>
    obtain ⟨heap, heq⟩ := free_eq s n node.fromCache
    rw [heq]
    exact ⟨rfl, rfl, rfl, rfl⟩

/-! ## The calls of an epoch -/

/-- One for a thread in call `t` of `add`, up to the last use of its node. -/
def calling (t : Added) : Option (Point E) → ℕ
  | some (.readWaiting _ t') | some (.late t') | some (.lateRelease t') | some (.createNode _ t')
  | some (.exchangeHead _ t' _) | some (.setNext _ t' _ _) | some (.setNextAgain t' _) =>
    if t' = t then 1 else 0
  | _ => 0

/-- One for a thread that may still make a node. -/
def uncreated : Option (Point E) → ℕ
  | some (.readWaiting _ _) | some (.createNode _ _) => 1
  | _ => 0

/-- The calls of an epoch are different, one thread is in each, and each has made one node. -/
structure State.Called (s : State E) : Prop where
  number : ∀ t ∈ s.added, t.number < s.added.length
  nodup : s.added.Nodup
  calling : ∀ t, tally (calling t) s.threads ≤ s.added.count t
  index : s.lastAssignedCacheIndex + tally uncreated s.threads ≤ s.added.length
  few : s.added.length < 2 ^ 32

lemma Advances.calling (h : Advances s a pt s₁ p) (t : Added) :
    calling t p ≤ calling t (some pt) := by
  cases h with
  | exchangeNull =>
    cases s.head <;> exact Nat.zero_le _
  | release t' next =>
    cases next <;> exact Nat.zero_le _
  | _ => first | exact le_rfl | exact Nat.zero_le _

/-- The index of the cache goes up by one for each node that is made. -/
lemma Advances.index (h : Advances s a pt s₁ p) :
    s₁.lastAssignedCacheIndex + uncreated p
      ≤ s.lastAssignedCacheIndex + uncreated (some pt) := by
  cases h with
  | wait | lateRelease | exchangeHead | stillWaiting | notWaiting | setException | clearWaiting
  | pause | readNext => exact le_rfl
  | tooLate => exact Nat.le_succ _
  | late t | fail t =>
    obtain ⟨failed, heq⟩ := dependentTaskFailed_eq s t
    rw [heq]
    exact le_rfl
  | createNode o t n hcreate =>
    obtain ⟨nodeCache, heap, rfl⟩ := createNode_eq hcreate
    exact Nat.mod_le (s.lastAssignedCacheIndex + 1) (2 ^ 32)
  | link o t n m =>
    obtain ⟨nodeCache, heap, heq⟩ := setNextNode_eq s (some m) n
    rw [heq]
    exact le_rfl
  | linkFirst t n | linkFirstTask t n | linkAgain t n =>
    obtain ⟨nodeCache, heap, heq⟩ := setNextNode_eq s none n
    rw [heq]
    exact le_rfl
  | exchangeNull =>
    cases s.head <;> exact le_rfl
  | free t n next node =>
    obtain ⟨heap, heq⟩ := free_eq s n node.fromCache
    rw [heq]
    exact le_rfl
  | release t next =>
    cases next <;> exact le_rfl

lemma called_step {b : Label E} (h : s.Called) (hstep : step s b = some s') : s'.Called := by
  cases steps hstep with
  | fork =>
    refine ⟨h.number, h.nodup, fun t => ?_, ?_, h.few⟩
    · rw [tally_append]
      exact h.calling t
    · rw [tally_append]
      exact h.index
  | add i o t hi hnumber hfew =>
    -- the number of a new task is the number of those that were added
    have hnew : t ∉ s.added := by
      intro hmem
      have hlt := h.number t hmem
      omega
    refine ⟨?_, ?_, fun t' => ?_, ?_, ?_⟩
    · intro t' ht'
      show t'.number < (s.added ++ [t]).length
      rw [List.length_append, List.length_singleton]
      rcases List.mem_append.mp ht' with ht' | ht'
      · have hlt := h.number t' ht'
        omega
      · obtain rfl := List.mem_singleton.mp ht'
        omega
    · refine List.nodup_append.mpr ⟨h.nodup, by simp, ?_⟩
      rintro t₁ ht₁ t₂ ht₂ rfl
      exact hnew (List.mem_singleton.mp ht₂ ▸ ht₁)
    · have hset := tally_set (calling t') (some (.readWaiting o t)) hi
      have hone := h.calling t'
      show tally (calling t') (s.threads.set i (some (.readWaiting o t)))
        ≤ (s.added ++ [t]).count t'
      rw [List.count_append, List.count_singleton]
      simp only [WaitingTaskList.calling, Nat.add_zero] at hset
      rw [hset]
      simp only [beq_iff_eq]
      omega
    · have hset := tally_set uncreated (some (.readWaiting o t)) hi
      have hindex := h.index
      show s.lastAssignedCacheIndex + tally uncreated (s.threads.set i (some (.readWaiting o t)))
        ≤ (s.added ++ [t]).length
      simp only [uncreated, Nat.add_zero] at hset
      rw [hset, List.length_append, List.length_singleton]
      omega
    · show (s.added ++ [t]).length < 2 ^ 32
      rw [List.length_append, List.length_singleton]
      exact hfew
  | doneWaiting i e hi =>
    refine ⟨h.number, h.nodup, fun t => ?_, ?_, h.few⟩
    · exact (tally_set (calling t) (some (.setException e)) hi).le.trans (h.calling t)
    · have hset := tally_set uncreated (some (.setException e)) hi
      have hindex := h.index
      show s.lastAssignedCacheIndex + tally uncreated (s.threads.set i (some (.setException e))) ≤ _
      exact (congrArg (s.lastAssignedCacheIndex + ·) hset).le.trans hindex
  | reset hidle =>
    have hzero : ∀ w : Option (Point E) → ℕ, w none = 0 → tally w s.threads = 0 := fun w hw =>
      tally_eq_zero.mpr fun q hq => by rw [hidle q hq, hw]
    -- no thread is in a call while the list is reset
    refine ⟨nofun, List.nodup_nil, fun t => (hzero (calling t) rfl).le, ?_, ?_⟩
    · show 0 + tally uncreated s.threads ≤ 0
      rw [hzero uncreated rfl]
    · exact Nat.two_pow_pos 32
  | retain | letGo => exact ⟨h.number, h.nodup, h.calling, h.index, h.few⟩
  | @advance s₁ i a pt p hi hadvances =>
    obtain ⟨hthreads, hadded, -, -⟩ := hadvances.frame
    refine ⟨?_, ?_, fun t => ?_, ?_, ?_⟩
    · show ∀ t ∈ s₁.added, t.number < s₁.added.length
      rw [hadded]
      exact h.number
    · show s₁.added.Nodup
      rw [hadded]
      exact h.nodup
    · have hset := tally_set (calling t) p hi
      have hle := hadvances.calling t
      have hone := h.calling t
      show tally (calling t) (s₁.threads.set i p) ≤ s₁.added.count t
      rw [hthreads, hadded]
      omega
    · have hset := tally_set uncreated p hi
      have hle := hadvances.index
      have hindex := h.index
      show s₁.lastAssignedCacheIndex + tally uncreated (s₁.threads.set i p) ≤ s₁.added.length
      rw [hthreads, hadded]
      omega
    · show s₁.added.length < 2 ^ 32
      rw [hadded]
      exact h.few

lemma called_init (c : ℕ) : (init c : State E).Called := by
  exact ⟨nofun, List.nodup_nil, fun t => le_rfl, le_rfl, Nat.two_pow_pos 32⟩

end UnifyPrototype.WaitingTaskList
