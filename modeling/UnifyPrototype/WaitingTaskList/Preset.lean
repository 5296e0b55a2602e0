import UnifyPrototype.WaitingTaskList.Deleted

/-!
# `presetTaskAsFailed`

The owner of the resource goes along the list and calls `dependentTaskFailed` on each task, while
other threads go on adding. Nothing is taken off the list: the owner calls `doneWaiting` later in the
same thread. Each atomic operation of it, and each call on a task, is one step between those of the
list.
-/

namespace UnifyPrototype.WaitingTaskList

open UnifyPrototype.Utils

variable {E : Type} {s s' s₁ : State E} {a i : ℕ} {pt : Point E} {p q : Option (Point E)}
  {l : List (NodeRef × Added)}

/-! ## The operations -/

/-- The next operation of `presetTaskAsFailed`. -/
inductive PresetPoint
  | readWaiting
  | readHead
  | readNext (n : NodeRef)
  | fail (t : Added) (next : Option NodeRef)
deriving DecidableEq, Repr

/-- The list, and where the owner is in `presetTaskAsFailed` with the exception that it was given.
The rest records the last call: its argument, the tasks whose nodes were on the list when it read
`m_head`, and on which tasks it has called `dependentTaskFailed`. -/
structure Owner (E : Type) where
  list : State E
  preset : Option (E × PresetPoint) := none
  except : Option E := none
  seen : List Added := []
  marked : List (Added × E) := []

/-- The constructor. -/
def Owner.init (iInitialSize : ℕ) : Owner E :=
  { list := WaitingTaskList.init iInitialSize }

/-- The call `t` of `add` has not exchanged `m_head` yet. -/
def exchanges (t : Added) : Option (Point E) → Bool
  | some (.readWaiting _ t') | some (.createNode _ t') | some (.exchangeHead _ t' _) => t' = t
  | _ => false

/-- The calls of `add` that have exchanged `m_head`. -/
def State.published (s : State E) : List Added :=
  s.added.filter fun t => !s.threads.any (exchanges t)

/-- One operation of `presetTaskAsFailed(e)`. -/
def Owner.advance (s : Owner E) (e : E) : PresetPoint → Option (Owner E)
  | .readWaiting => some { s with preset := if s.list.waiting then some (e, .readHead) else none }
  | .readHead => some { s with
      preset := s.list.head.map fun n => (e, .readNext n)
      seen := s.list.published }
  | .readNext n => (s.list.node n).map fun node => { s with
      preset := some (e, if node.next = some n then .readNext n else .fail node.added node.next) }
  | .fail t next => some { s with
      preset := next.map fun n => (e, .readNext n)
      marked := s.marked ++ [(t, e)] }

/-- The moves: those of the list; the owner calls `presetTaskAsFailed`; it makes its next operation
there. -/
inductive OwnerLabel (E : Type)
  | list (b : Label E)
  | preset (iExcept : Option E)
  | advance
deriving DecidableEq, Repr

/-- The owner makes this call. -/
def Label.ofOwner : Label E → Bool
  | .doneWaiting _ _ | .reset => true
  | _ => false

/-- One step. The owner makes one call at a time. Without an exception `presetTaskAsFailed` returns at
once. -/
def Owner.step (s : Owner E) : OwnerLabel E → Option (Owner E)
  | .list b =>
    if b.ofOwner && s.preset.isSome then none
    else (WaitingTaskList.step s.list b).map ({ s with list := · })
  | .preset iExcept =>
    if s.preset.isNone && (s.list.done.isNone || !s.list.waiting) then some { s with
      preset := iExcept.map (·, .readWaiting)
      except := iExcept
      seen := []
      marked := [] }
    else none
  | .advance =>
    match s.preset with
    | some (e, pt) => s.advance e pt
    | none => none

/-! ## The nodes while the list waits -/

lemma Advances.waiting (h : Advances s a pt s₁ p) (hwaiting : s₁.waiting = true) :
    s.waiting = true := by
  cases h with
  | wait | tooLate | lateRelease | exchangeHead | stillWaiting | notWaiting | setException
  | exchangeNull | pause | readNext | release => exact hwaiting
  | clearWaiting => cases hwaiting
  | late t | fail t =>
    obtain ⟨failed, heq⟩ := dependentTaskFailed_eq s t
    rwa [heq] at hwaiting
  | createNode o t n hcreate =>
    obtain ⟨nodeCache, heap, rfl⟩ := createNode_eq hcreate
    exact hwaiting
  | link o t n m =>
    obtain ⟨nodeCache, heap, heq⟩ := setNextNode_eq s (some m) n
    rwa [heq] at hwaiting
  | linkFirst t n | linkFirstTask t n | linkAgain t n =>
    obtain ⟨nodeCache, heap, heq⟩ := setNextNode_eq s none n
    rwa [heq] at hwaiting
  | free t n next node =>
    obtain ⟨heap, heq⟩ := free_eq s n node.fromCache
    rwa [heq] at hwaiting

/-- While the list waits, the references are where they belong and every call has its node, whatever
happened in the epochs before. -/
def State.Intact (s : State E) : Prop :=
  s.waiting = true → s.Placed ∧ s.Rewritable

/-- While the list waits nobody announces. -/
lemma announcing_eq_zero (hwaited : s.Waited) (hwaiting : s.waiting = true)
    (hi : s.threads[i]? = some p) : announcing p = 0 := by
  have hle := le_tally announcing hi
  have hzero := (hwaited.before hwaiting).2
  omega

/-- Nothing is deleted while the list waits. -/
lemma deletesUnused_of_waiting (hwaited : s.Waited) (hwaiting : s.waiting = true) (b : Label E) :
    deletesUnused s b = true := by
  unfold deletesUnused
  split
  next i _ =>
    split
    next hi => cases announcing_eq_zero hwaited hwaiting hi
    next => rfl
  next => rfl

lemma intact_step {b : Label E} (hcalled : s.Called) (hwaited : s.Waited) (hawaited : s.Awaited)
    (h : s.Intact) (hstep : step s b = some s') : s'.Intact := by
  intro hwaiting'
  by_cases hwaiting : s.waiting = true
  · obtain ⟨hplaced, hrewritable⟩ := h hwaiting
    have hpermitted := permitted_of_rewritable hrewritable b
    refine ⟨placed_step hcalled hwaited hawaited hplaced hpermitted hstep, ?_⟩
    obtain ⟨stack, chains, howned⟩ := hplaced
    exact rewritable_step howned hrewritable (deletesUnused_of_waiting hwaited hwaiting b) hstep
  · -- only `reset` sets it, and nobody has anything then
    cases steps hstep with
    | fork | add | doneWaiting | retain | letGo => exact absurd hwaiting' hwaiting
    | advance i a hi hadvances => exact absurd (hadvances.waiting hwaiting') hwaiting
    | reset hidle hdone =>
      have hhead := (head_eq_none hwaited hawaited hidle hdone).2
      have hnone : ∀ (j : ℕ) (q : Point E), s.threads[j]? ≠ some (some q) := fun j q hj => by
        cases hidle _ (List.mem_of_getElem? hj)
      have hnil : ∀ c ∈ s.threads.map fun _ => ([] : List (NodeRef × Added)), c = [] := by
        intro c hc
        obtain ⟨q, -, rfl⟩ := List.mem_map.mp hc
        rfl
      refine ⟨⟨[], s.threads.map fun _ => [], hhead, List.length_map _, trivial, fun c hc => ?_,
        fun j q c hj hc => ?_, fun t => ?_⟩, fun j t b hj => absurd hj (hnone j _)⟩
      · rw [hnil c hc]
        trivial
      · rw [hnil c (List.mem_of_getElem? hc), hidle q (List.mem_of_getElem? hj)]
        rfl
      · have hcarry : tally (carry t) s.threads = 0 :=
          tally_eq_zero.mpr fun q hq => by rw [hidle q hq]; rfl
        have hqueued : tally (fun c => tally (queued t) c) (s.threads.map fun _ => []) = 0 :=
          tally_eq_zero.mpr fun c hc => by rw [hnil c hc]; rfl
        show tally (carry t) s.threads + 0
          + tally (fun c => tally (queued t) c) (s.threads.map fun _ => []) + 0 = 0
        rw [hcarry, hqueued]

lemma intact_init (k : ℕ) : (init k : State E).Intact :=
  fun _ => ⟨placed_init k, fun i t a hi => by simp [init] at hi⟩

/-- An operation of a thread while the list waits: it makes a node, links the one that it has made, or
leaves the nodes alone. -/
lemma moved_of_waiting {stack : List (NodeRef × Added)} {chains : List (List (NodeRef × Added))}
    (hcalled : s.Called) (howned : s.Owned stack chains) (hrewritable : s.Rewritable)
    (hquiet : announcing (some pt) = 0) (hi : s.threads[i]? = some (some pt))
    (hadvances : Advances s a pt s₁ p) : Moved s (State.goto i (s₁, p)) i (some pt) p := by
  obtain ⟨c, hc, hfollows⟩ := howned.chain hi
  -- the first write of a call is of the node that it has made
  have hlink : ∀ ov t n old, pt = .setNext ov t n old →
      Moved s (State.goto i (s.setNextNode old n, p)) i (some pt) p := by
    rintro ov t n old rfl
    obtain ⟨-, hat, -⟩ := hfollows
    have hset : (s.setNextNode old n).At n t old := by
      obtain ⟨node, hnode, ht, -⟩ := hat
      refine ⟨{ node with next := old }, ?_, ht, rfl⟩
      rw [assigned_setNextNode_self, hnode]
      rfl
    have hthreads : (s.setNextNode old n).threads = s.threads := by
      obtain ⟨nodeCache, heap, heq⟩ := setNextNode_eq s old n
      rw [heq]
    refine ⟨congrArg (List.set · i p) hthreads, fun n' t' o h => ?_, fun n' t' o h => ?_,
      fun ov' t' n' old' heq _ => ?_⟩
    · by_cases hn : n' = n
      · subst hn
        obtain ⟨rfl, -⟩ := h.unique hat
        exact .inr (.inl ⟨ov, old, rfl⟩)
      · obtain ⟨node, hnode, ht, ho⟩ := h
        exact .inl ⟨node, (assigned_setNextNode_of_ne s old hn).trans hnode, ht, ho⟩
    · by_cases hn : n' = n
      · subst hn
        obtain ⟨rfl, -⟩ := State.At.unique (s := s.setNextNode old n') h hset
        exact .inr (.inr ⟨ov, old, rfl⟩)
      · obtain ⟨node, hnode, ht, ho⟩ := h
        exact .inl ⟨node, (assigned_setNextNode_of_ne s old hn).symm.trans hnode, ht, ho⟩
    · obtain ⟨-, rfl, rfl, rfl⟩ := by simpa using heq
      exact hset
  cases hadvances with
  | wait | stillWaiting | notWaiting | setException | clearWaiting | exchangeHead =>
    exact .of_assigned rfl rfl (by simp)
  | tooLate => exact .of_assigned rfl rfl (by simp)
  | late | lateRelease | exchangeNull | pause | readNext | fail | free | release => cases hquiet
  | createNode o t n hcreate =>
    have hindex : s.lastAssignedCacheIndex + 1 < 2 ^ 32 := by
      have hle := le_tally uncreated hi
      have hbound := hcalled.index
      have hfew := hcalled.few
      simp only [uncreated] at hle
      omega
    obtain ⟨hfree, hat, hsame⟩ := assigned_createNode hcreate hindex
    obtain ⟨nodeCache, heap, rfl⟩ := createNode_eq hcreate
    refine ⟨rfl, fun n' t' o' h => ?_, fun n' t' o' h => ?_, by simp⟩
    · obtain ⟨node, hnode, ht, ho⟩ := h
      have hne : n' ≠ n := by
        rintro rfl
        cases hfree.symm.trans hnode
      exact .inl ⟨node, (hsame n' hne).trans hnode, ht, ho⟩
    · by_cases hne : n' = n
      · subst hne
        obtain ⟨rfl, -⟩ := State.At.unique h hat
        exact .inr (.inl ⟨o, rfl⟩)
      · obtain ⟨node, hnode, ht, ho⟩ := h
        exact .inl ⟨node, (hsame n' hne).symm.trans hnode, ht, ho⟩
  | link o t n m => exact hlink o t n (some m) rfl
  | linkFirst t n => exact hlink .holder t n none rfl
  | linkFirstTask t n => exact hlink .task t n none rfl
  | linkAgain t n =>
    -- the second write changes nothing
    obtain ⟨-, hnone, hcached⟩ := hfollows
    have hat : s.At n t none := by
      cases n with
      | cached k => exact hcached k rfl
      | heap b =>
        obtain ⟨node, hnode, ht⟩ := hrewritable i t b hi
        exact ⟨node, hnode, ht, hnone _ ⟨node, hnode, ht, rfl⟩⟩
    have hassigned := assigned_setNextNode_of_at hat
    obtain ⟨nodeCache, heap, heq⟩ := setNextNode_eq s none n
    rw [heq] at hassigned ⊢
    exact .of_assigned rfl hassigned (by simp)

/-! ## The part of the list that is left -/

/-- A list of nodes whose references nobody has in his hands. -/
structure State.Rest (s : State E) (l : List (NodeRef × Added)) : Prop where
  chained : s.Chained l
  added : ∀ x ∈ l, x.2 ∈ s.added
  untouched : ∀ x ∈ l, ∀ r ∈ s.threads, carry x.2 r = 0

lemma State.Rest.tail {x : NodeRef × Added} (h : s.Rest (x :: l)) : s.Rest l :=
  ⟨h.chained.2, fun y hy => h.added y (List.mem_cons_of_mem _ hy),
    fun y hy => h.untouched y (List.mem_cons_of_mem _ hy)⟩

/-- A step that is not about the nodes. -/
lemma State.Rest.congr (h : s.Rest l) (hassigned : s'.assigned = s.assigned)
    (hthreads : ∀ (j : ℕ) (pt : Point E), s.threads[j]? = some (some pt) →
      s'.threads[j]? = some (some pt)) (hadded : ∀ t ∈ s.added, t ∈ s'.added)
    (huntouched : ∀ r ∈ s'.threads, r ∈ s.threads ∨ ∀ x ∈ l, carry x.2 r = 0) : s'.Rest l :=
  ⟨h.chained.mono hassigned hthreads, fun x hx => hadded _ (h.added x hx), fun x hx r hr =>
    (huntouched r hr).elim (h.untouched x hx r) fun hnew => hnew x hx⟩

/-- A thread that is not in a call calls something. -/
lemma getElem?_set_of_none {threads : List (Option (Point E))} (hi : threads[i]? = some none)
    {j : ℕ} (hj : threads[j]? = some (some pt)) : (threads.set i p)[j]? = some (some pt) := by
  have hne : j ≠ i := by
    rintro rfl
    cases hj.symm.trans hi
  exact (List.getElem?_set_ne hne.symm).trans hj

/-- While the list waits, no thread takes a reference that it does not have. -/
lemma carry_le_of_waiting (hwaiting : s.waiting = true) (hquiet : announcing (some pt) = 0)
    (hadvances : Advances s a pt s₁ p) (t : Added) : carry t p ≤ carry t (some pt) := by
  cases hadvances with
  | tooLate _ _ hnot => cases hwaiting.symm.trans hnot
  | exchangeNull | readNext | release => cases hquiet
  | _ => first | exact le_rfl | exact Nat.zero_le _

/-- While the list waits, no step touches the part that is left. -/
lemma rest_step {b : Label E} (hcalled : s.Called) (hwaited : s.Waited) (hintact : s.Intact)
    (hwaiting : s.waiting = true) (h : s.Rest l) (hreset : b ≠ .reset)
    (hstep : step s b = some s') : s'.Rest l := by
  obtain ⟨⟨stack, chains, howned⟩, hrewritable⟩ := hintact hwaiting
  cases steps hstep with
  | fork =>
    refine h.congr ?_ (fun j pt hj => ?_) (fun t ht => ht) fun r hr => ?_
    · rfl
    · rw [List.getElem?_append_left (List.getElem?_eq_some_iff.mp hj).1, hj]
    · exact (List.mem_append.mp hr).imp_right fun hr x _ => by rw [List.mem_singleton.mp hr]; rfl
  | add i o t hi hnumber hfew =>
    refine h.congr ?_ (fun j pt hj => ?_) (fun t ht => List.mem_append_left _ ht) fun r hr => ?_
    · rfl
    · exact getElem?_set_of_none hi hj
    · refine (List.mem_or_eq_of_mem_set hr).imp_right fun heq x hx => ?_
      rw [heq]
      -- the new call has a number of its own
      refine if_neg ?_
      rintro rfl
      have hlt := hcalled.number _ (h.added x hx)
      omega
  | doneWaiting i e hi =>
    refine h.congr ?_ (fun j pt hj => ?_) (fun t ht => ht) fun r hr => ?_
    · rfl
    · exact getElem?_set_of_none hi hj
    · exact (List.mem_or_eq_of_mem_set hr).imp_right fun heq x _ => by rw [heq]; rfl
  | reset => exact absurd rfl hreset
  | retain | letGo =>
    refine h.congr ?_ (fun _ _ hj => hj) (fun _ ht => ht) fun _ hr => .inl hr
    rfl
  | @advance s₁ i a pt p hi hadvances =>
    obtain ⟨c, hc, hfollows⟩ := howned.chain hi
    obtain ⟨hthreads, hadded, -, -⟩ := hadvances.frame
    have hquiet := announcing_eq_zero hwaited hwaiting hi
    have hmoved := moved_of_waiting hcalled howned hrewritable hquiet hi hadvances
    refine ⟨h.chained.moved hcalled hi hfollows hmoved fun x hx =>
      h.untouched x hx _ (List.mem_of_getElem? hi), fun x hx => ?_, fun x hx r hr => ?_⟩
    · show x.2 ∈ s₁.added
      rw [hadded]
      exact h.added x hx
    · change r ∈ s₁.threads.set i p at hr
      rw [hthreads] at hr
      rcases List.mem_or_eq_of_mem_set hr with hr | rfl
      · exact h.untouched x hx r hr
      · have hle := carry_le_of_waiting hwaiting hquiet hadvances x.2
        have hzero := h.untouched x hx _ (List.mem_of_getElem? hi)
        omega

/-! ## What is on the list when `m_head` is read -/

lemma count_map_snd (t : Added) (l : List (NodeRef × Added)) :
    (l.map Prod.snd).count t = tally (queued t) l := by
  induction l with
  | nil => rfl
  | cons x l ih =>
    rw [List.map_cons, List.count_cons, ih, tally_cons, queued, Nat.add_comm]
    simp only [beq_iff_eq]

/-- While the list waits, a thread that has a reference has not exchanged `m_head`. -/
lemma carry_eq_exchanges (hquiet : announcing p = 0) (t : Added) :
    carry t p = if exchanges t p then 1 else 0 := by
  cases p with
  | none => rfl
  | some pt =>
    cases pt with
    | readWaiting | createNode | exchangeHead => simp [carry, exchanges]
    | late | lateRelease | fail | free | release => cases hquiet
    | _ => rfl

/-- And a thread has taken nothing off the list. -/
lemma nil_of_follows {c : List (NodeRef × Added)} (hquiet : announcing p = 0)
    (h : s.Follows p c) : c = [] := by
  cases p with
  | none => exact h
  | some pt =>
    cases pt with
    | exchangeHead | setNext | setNextAgain => exact h.1
    | readNext | fail | free | release => cases hquiet
    | _ => exact h

variable {stack : List (NodeRef × Added)} {chains : List (List (NodeRef × Added))}

/-- The tasks on the chain are those that were published. -/
lemma published_perm (hcalled : s.Called) (hwaited : s.Waited) (howned : s.Owned stack chains)
    (hwaiting : s.waiting = true) : (stack.map Prod.snd).Perm s.published := by
  obtain ⟨hreleased, -⟩ := hwaited.before hwaiting
  have hchains : ∀ t, tally (fun c => tally (queued t) c) chains = 0 := fun t =>
    tally_eq_zero.mpr fun c hc => by
      obtain ⟨j, hj⟩ := List.getElem?_of_mem hc
      have hlt : j < s.threads.length := howned.length ▸ (List.getElem?_eq_some_iff.mp hj).1
      have hthread := List.getElem?_eq_getElem hlt
      obtain rfl := nil_of_follows (announcing_eq_zero hwaited hwaiting hthread)
        (howned.follows j _ c hthread hj)
      rfl
  have hcarry : ∀ t, ∀ r ∈ s.threads, carry t r = if exchanges t r then 1 else 0 := fun t r hr => by
    obtain ⟨j, hj⟩ := List.getElem?_of_mem hr
    exact carry_eq_exchanges (announcing_eq_zero hwaited hwaiting hj) t
  refine List.perm_iff_count.mpr fun t => ?_
  have hplaces := howned.places t
  have hone := hcalled.count_le t
  rw [hreleased, hchains t, List.count_nil] at hplaces
  rw [count_map_snd]
  cases hany : s.threads.any (exchanges t) with
  | true =>
    -- the call has its reference, so that it is not on the list
    obtain ⟨r, hr, hexchanges⟩ := List.any_eq_true.mp hany
    have hle := le_tally_of_mem (carry t) hr
    rw [hcarry t r hr, if_pos hexchanges] at hle
    have hnot : t ∉ s.published := fun hmem => by
      have hfilter := (List.mem_filter.mp hmem).2
      rw [hany] at hfilter
      cases hfilter
    rw [List.count_eq_zero.mpr hnot]
    omega
  | false =>
    have hzero : tally (carry t) s.threads = 0 := tally_eq_zero.mpr fun r hr => by
      rw [hcarry t r hr, if_neg (List.any_eq_false.mp hany r hr)]
    rw [State.published, List.count_filter (by rw [hany]; rfl)]
    omega

/-! ## The walk -/

/-- Where a call is that has `l` of the list left. -/
def PresetPoint.Along : PresetPoint → List (NodeRef × Added) → Prop
  | .readWaiting, l | .readHead, l => l = []
  | .readNext n, l => l.head?.map Prod.fst = some n
  | .fail _ next, l => next = l.head?.map Prod.fst

/-- The task that the call is at. -/
def PresetPoint.current : PresetPoint → List Added
  | .fail t _ => [t]
  | _ => []

/-- A call is at `pt` and has `l` of the list left. -/
structure Owner.Walks (s : Owner E) (pt : PresetPoint) (l : List (NodeRef × Added)) : Prop where
  along : pt.Along l
  rest : s.list.Rest l
  current : ∀ t ∈ pt.current, t ∈ s.list.added
  seen : (s.marked.map Prod.fst ++ pt.current ++ l.map Prod.snd).Perm s.seen
  start : pt = .readWaiting ∨ pt = .readHead → s.marked = []
  done : s.list.done = none ∨ pt = .readWaiting ∧ s.list.waiting = false

/-- What is known of the last call: where it is, or that it has been along the whole list. -/
structure Owner.Known (s : Owner E) : Prop where
  except : ∀ x ∈ s.marked, s.except = some x.2
  walks : ∀ e pt, s.preset = some (e, pt) → s.except = some e ∧ ∃ l, s.Walks pt l
  returned : s.preset = none → (s.marked.map Prod.fst).Perm s.seen
  nodup : s.seen.Nodup

/-- What is known of the list. -/
structure State.Regular (s : State E) : Prop where
  called : s.Called
  waited : s.Waited
  awaited : s.Awaited
  intact : s.Intact

lemma regular_step {b : Label E} (h : s.Regular) (hstep : step s b = some s') : s'.Regular where
  called := called_step h.called hstep
  waited := waited_step h.waited hstep
  awaited := awaited_step h.awaited hstep
  intact := intact_step h.called h.waited h.awaited h.intact hstep

lemma regular_init (k : ℕ) : (init k : State E).Regular :=
  ⟨called_init k, waited_init k, awaited_init k, intact_init k⟩

/-- `doneWaiting` was not called, so the list waits. -/
lemma State.Regular.waiting (h : s.Regular) (hdone : s.done = none) : s.waiting = true := by
  by_contra hno
  have hafter := h.waited.after (by simpa using hno)
  rw [hdone] at hafter
  cases hafter

/-- Other calls do not say that `doneWaiting` was called, and do not set `m_waiting`. -/
lemma done_step {b : Label E} (hb : b.ofOwner = false) (hstep : step s b = some s') :
    s'.done = s.done ∧ (s.waiting = false → s'.waiting = false) := by
  cases steps hstep with
  | doneWaiting | reset => cases hb
  | fork | add | retain | letGo => exact ⟨rfl, id⟩
  | @advance s₁ i a pt p hi hadvances =>
    refine ⟨hadvances.frame.2.2.1, fun hwaiting => ?_⟩
    show s₁.waiting = false
    cases hs₁ : s₁.waiting with
    | false => rfl
    | true => cases hwaiting.symm.trans (hadvances.waiting hs₁)

variable {o o' : Owner E} {e : E} {point : PresetPoint}

/-- The other threads leave the rest of the walk as it is. -/
lemma walks_list {b : Label E} (hregular : o.list.Regular) (h : o.Walks point l) (hb : b.ofOwner = false)
    (hstep : step o.list b = some s') : Owner.Walks { o with list := s' } point l := by
  obtain ⟨hdone, hwaiting⟩ := done_step hb hstep
  have hadded : ∀ t ∈ o.list.added, t ∈ s'.added := by
    cases steps hstep with
    | reset => cases hb
    | fork | doneWaiting | retain | letGo => exact fun t ht => ht
    | add => exact fun t ht => List.mem_append_left _ ht
    | advance i a hi hadvances => exact fun t ht => hadvances.frame.2.1 ▸ ht
  refine ⟨h.along, ?_, fun t ht => hadded t (h.current t ht), h.seen, h.start, ?_⟩
  · rcases h.done with hnone | ⟨rfl, -⟩
    · refine rest_step hregular.called hregular.waited hregular.intact (hregular.waiting hnone) h.rest ?_ hstep
      rintro rfl
      cases hb
    · obtain rfl : l = [] := h.along
      exact ⟨trivial, nofun, nofun⟩
  · exact h.done.imp (fun hnone => hdone.trans hnone) fun hw => ⟨hw.1, hwaiting hw.2⟩

lemma known_list {b : Label E} (hregular : o.list.Regular) (h : o.Known)
    (hb : ¬ (b.ofOwner && o.preset.isSome) = true) (hstep : step o.list b = some s') :
    Owner.Known { o with list := s' } := by
  refine ⟨h.except, fun e pt hpt => ?_, h.returned, h.nodup⟩
  obtain ⟨hexcept, l, hwalks⟩ := h.walks e pt hpt
  refine ⟨hexcept, l, walks_list hregular hwalks ?_ hstep⟩
  have hpreset : o.preset.isSome = true := by
    change o.preset = some (e, pt) at hpt
    rw [hpt]
    rfl
  simpa [hpreset] using hb

/-- At the end of the list the call returns. -/
lemma known_next (hexcept : ∀ x ∈ o.marked, o.except = some x.2) (he : o.except = some e)
    (hdone : o.list.done = none) (hrest : o.list.Rest l) (hnodup : o.seen.Nodup)
    (hseen : (o.marked.map Prod.fst ++ l.map Prod.snd).Perm o.seen) :
    Owner.Known { o with preset := (l.head?.map Prod.fst).map fun n => (e, .readNext n) } := by
  refine ⟨hexcept, fun e' pt hpt => ?_, fun hnone => ?_, hnodup⟩
  · obtain ⟨n, hn, heq⟩ := Option.map_eq_some_iff.mp hpt
    obtain ⟨rfl, rfl⟩ := Prod.mk.inj heq
    refine ⟨he, l, hn, hrest, nofun, ?_, nofun, .inl hdone⟩
    simpa only [PresetPoint.current, List.append_nil] using hseen
  · obtain rfl : l = [] := by simpa using hnone
    rwa [List.map_nil, List.append_nil] at hseen

lemma known_advance (hregular : o.list.Regular) (h : o.Known) (hpreset : o.preset = some (e, point))
    (hstep : o.advance e point = some o') : o'.Known := by
  obtain ⟨he, l, hwalks⟩ := h.walks e point hpreset
  cases point with
  | readWaiting =>
    obtain rfl := Option.some.inj hstep
    obtain rfl : l = [] := hwalks.along
    have hseen := hwalks.seen
    simp only [PresetPoint.current, List.map_nil, List.append_nil] at hseen
    refine ⟨h.except, fun e' pt hpt => ?_, fun _ => hseen, h.nodup⟩
    simp only at hpt
    split at hpt
    next hwaiting =>
      obtain ⟨rfl, rfl⟩ := Prod.mk.inj (Option.some.inj hpt)
      refine ⟨he, [], rfl, hwalks.rest, nofun, ?_, fun _ => hwalks.start (.inl rfl), .inl ?_⟩
      · simpa only [PresetPoint.current, List.map_nil, List.append_nil] using hseen
      · rcases hwalks.done with hdone | ⟨-, hnot⟩
        · exact hdone
        · cases hwaiting.symm.trans hnot
    next => cases hpt
  | readHead =>
    obtain rfl := Option.some.inj hstep
    have hdone : o.list.done = none := hwalks.done.resolve_right nofun
    have hwaiting := hregular.waiting hdone
    obtain ⟨⟨stack, chains, howned⟩, -⟩ := hregular.intact hwaiting
    have hperm := published_perm hregular.called hregular.waited howned hwaiting
    have hmarked := hwalks.start (.inr rfl)
    rw [howned.head]
    refine known_next (o := { o with seen := o.list.published }) h.except he hdone
      ⟨howned.onList, fun x hx => ?_, fun x hx r hr => ?_⟩ (hregular.called.nodup.filter _) ?_
    · have hmem := hperm.mem_iff.mp (List.mem_map_of_mem hx)
      exact (List.mem_filter.mp hmem).1
    · obtain ⟨j, hj⟩ := List.getElem?_of_mem hr
      exact howned.carry_eq_zero hregular.called hj (.inl hx)
    · show (o.marked.map Prod.fst ++ stack.map Prod.snd).Perm o.list.published
      rw [hmarked]
      exact hperm
  | readNext n =>
    obtain ⟨node, hnode, rfl⟩ := Option.map_eq_some_iff.mp hstep
    have hdone : o.list.done = none := hwalks.done.resolve_right nofun
    refine ⟨h.except, fun e' pt hpt => ?_, nofun, h.nodup⟩
    obtain ⟨rfl, rfl⟩ := Prod.mk.inj (Option.some.inj hpt)
    refine ⟨he, ?_⟩
    split
    next => exact ⟨l, hwalks.along, hwalks.rest, nofun, hwalks.seen, nofun, .inl hdone⟩
    next hnext =>
      cases l with
      | nil => cases hwalks.along
      | cons x l =>
        obtain ⟨m, t⟩ := x
        obtain rfl : m = n := Option.some.inj hwalks.along
        -- the node is linked, since it does not point to itself
        rcases hwalks.rest.chained.1 with ⟨⟨node', hnode', rfl, hnext'⟩, -⟩ | ⟨⟨node', hnode', -, hself⟩, -⟩
        · obtain rfl := Option.some.inj ((node_of_assigned hnode').symm.trans hnode)
          refine ⟨l, hnext', hwalks.rest.tail, fun t ht => ?_, ?_, nofun, .inl hdone⟩
          · obtain rfl := List.mem_singleton.mp ht
            exact hwalks.rest.added _ (List.mem_cons_self ..)
          · have hseen := hwalks.seen
            simpa only [PresetPoint.current, List.map_cons, List.append_nil, List.append_assoc,
              List.singleton_append] using hseen
        · obtain rfl := Option.some.inj ((node_of_assigned hnode').symm.trans hnode)
          exact absurd hself hnext
  | fail t next =>
    obtain rfl := Option.some.inj hstep
    obtain rfl : next = l.head?.map Prod.fst := hwalks.along
    refine known_next (o := { o with marked := o.marked ++ [(t, e)] }) (fun x hx => ?_) he
      (hwalks.done.resolve_right nofun) hwalks.rest h.nodup ?_
    · rcases List.mem_append.mp hx with hx | hx
      · exact h.except x hx
      · obtain rfl := List.mem_singleton.mp hx
        exact he
    · have hseen := hwalks.seen
      simpa only [PresetPoint.current, List.map_append, List.map_cons, List.map_nil] using hseen

lemma known_step {b : OwnerLabel E} (hregular : o.list.Regular) (h : o.Known)
    (hstep : o.step b = some o') : o'.list.Regular ∧ o'.Known := by
  cases b with
  | list b =>
    simp only [Owner.step] at hstep
    split at hstep
    next => cases hstep
    next hb =>
      obtain ⟨s', hs', rfl⟩ := Option.map_eq_some_iff.mp hstep
      exact ⟨regular_step hregular hs', known_list hregular h hb hs'⟩
  | preset iExcept =>
    simp only [Owner.step, Bool.and_eq_true, Bool.or_eq_true, Option.isNone_iff_eq_none] at hstep
    split at hstep
    next hfree =>
      obtain rfl := Option.some.inj hstep
      refine ⟨hregular, nofun, fun e pt hpt => ?_, fun _ => .refl _, List.nodup_nil⟩
      obtain ⟨e', rfl, heq⟩ := Option.map_eq_some_iff.mp hpt
      obtain ⟨rfl, rfl⟩ := Prod.mk.inj heq
      refine ⟨rfl, [], rfl, ⟨trivial, nofun, nofun⟩, nofun, .refl _, fun _ => rfl, ?_⟩
      exact hfree.2.imp_right fun hwaiting => ⟨rfl, by simpa using hwaiting⟩
    next => cases hstep
  | advance =>
    simp only [Owner.step] at hstep
    split at hstep
    next e pt hpreset =>
      have hlist : o'.list = o.list := by
        cases pt with
        | readNext n =>
          obtain ⟨node, -, rfl⟩ := Option.map_eq_some_iff.mp hstep
          rfl
        | readWaiting | readHead | fail =>
          obtain rfl := Option.some.inj hstep
          rfl
      exact ⟨hlist ▸ hregular, known_advance hregular h hpreset hstep⟩
    next => cases hstep

/-- In every run what is known of the list and of the last call is right. -/
lemma known {k : ℕ} (h : Reaches Owner.step (Owner.init k) o) : o.list.Regular ∧ o.Known :=
  h.invariant ⟨regular_init k, nofun, nofun, fun _ => .refl _, List.nodup_nil⟩
    fun _ _ _ hs _ hstep => known_step hs.1 hs.2 hstep

/-- **`presetTaskAsFailed` marks the tasks that were on the list, each once.** In every state of every
run: a node that it reads is there, and if the node points to itself a call of `add` is about to link
it; a task that it marks was added in this epoch and nothing is released yet; it marks no task twice
and none that came later, with the exception that it was given; and when it has returned, it has
marked the task of each call of `add` that had exchanged `m_head` when it read `m_head`. -/
theorem preset_marks {k : ℕ} (h : Reaches Owner.step (Owner.init k) o) :
    (∀ e n, o.preset = some (e, .readNext n) → ∃ node, o.list.node n = some node ∧
      (node.next = some n → ∃ (i : ℕ) (ov : Overload) (old : Option NodeRef),
        o.list.threads[i]? = some (some (.setNext ov node.added n old)))) ∧
    (∀ e t next, o.preset = some (e, .fail t next) → t ∈ o.list.added ∧ o.list.released = []) ∧
    (o.marked.map Prod.fst).Nodup ∧ (∀ x ∈ o.marked, x.1 ∈ o.seen ∧ o.except = some x.2) ∧
    (o.preset = none → (o.marked.map Prod.fst).Perm o.seen) := by
  obtain ⟨hregular, hknown⟩ := known h
  -- what is marked is a part of what was seen
  have hsubperm : (o.marked.map Prod.fst).Subperm o.seen := by
    cases hpreset : o.preset with
    | none => exact (hknown.returned hpreset).subperm
    | some x =>
      obtain ⟨-, l, hwalks⟩ := hknown.walks x.1 x.2 hpreset
      have hseen := hwalks.seen
      rw [List.append_assoc] at hseen
      exact (List.sublist_append_left _ _).subperm.trans hseen.subperm
  refine ⟨fun e n hpreset => ?_, fun e t next hpreset => ?_, ?_, fun x hx => ?_, hknown.returned⟩
  · obtain ⟨-, l, hwalks⟩ := hknown.walks e _ hpreset
    cases l with
    | nil => cases hwalks.along
    | cons x l =>
      obtain ⟨m, t⟩ := x
      obtain rfl : m = n := Option.some.inj hwalks.along
      rcases hwalks.rest.chained.1 with ⟨⟨node, hnode, -, hnext⟩, hne⟩ | ⟨⟨node, hnode, rfl, -⟩, hadd⟩
      · refine ⟨node, node_of_assigned hnode, fun hself => ?_⟩
        rw [hnext] at hself
        exact absurd hself hne
      · obtain ⟨i, ov, hi⟩ := hadd
        exact ⟨node, node_of_assigned hnode, fun _ => ⟨i, ov, _, hi⟩⟩
  · obtain ⟨-, l, hwalks⟩ := hknown.walks e _ hpreset
    have hwaiting := hregular.waiting (hwalks.done.resolve_right nofun)
    exact ⟨hwalks.current t (List.mem_singleton_self t), (hregular.waited.before hwaiting).1⟩
  · obtain ⟨l, hperm, hsublist⟩ := hsubperm
    exact hperm.nodup_iff.mp (hknown.nodup.sublist hsublist)
  · exact ⟨hsubperm.subset (List.mem_map_of_mem hx), hknown.except x hx⟩

/-- Thread 0 adds a task, and thread 1 exchanges `m_head` and does not link its node yet. -/
def unlinked : List (Label ℕ) :=
  [.fork, .fork, .fork, .add 0 .holder 10 0] ++ operations 0 0 6 ++ [.add 1 .task 11 0] ++
    operations 1 1 3

/-- Thread 2 adds a task, and thread 1 links its node. -/
def linked : List (Label ℕ) :=
  [.add 2 .task 12 0] ++ operations 2 2 4 ++ operations 1 1 1

/-- The owner reads `m_head` and waits for thread 1. -/
def presetWhileAdding : List (OwnerLabel ℕ) :=
  unlinked.map .list ++ [.preset (some 7), .advance, .advance, .advance] ++ linked.map .list ++
    List.replicate 4 .advance

theorem preset_marks_whileAdding :
    ∃ o : Owner ℕ, executeAll Owner.step (Owner.init 1) presetWhileAdding = some o ∧
      o.preset = none ∧ o.list.added.length = 3 ∧ o.marked.length = 2 ∧
      (o.marked.map Prod.fst).Perm o.seen := by
  have hrun : ∃ o : Owner ℕ, executeAll Owner.step (Owner.init 1) presetWhileAdding = some o ∧
      o.preset = none ∧ o.list.added.length = 3 ∧ o.marked.length = 2 := by
    refine ⟨_, rfl, ?_, ?_, ?_⟩ <;> decide
  obtain ⟨o, ho, hpreset, hadded, hmarked⟩ := hrun
  exact ⟨o, ho, hpreset, hadded, hmarked,
    (preset_marks (.of_executeAll _ ho)).2.2.2.2 hpreset⟩

end UnifyPrototype.WaitingTaskList
