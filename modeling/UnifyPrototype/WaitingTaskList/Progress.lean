import UnifyPrototype.WaitingTaskList.Released
import UnifyPrototype.Utils.Cost

/-!
# The work of the list

A thread in `announce` does the work for the calls whose tasks it releases, and waits while a node is
not linked. So what one call does is not bounded by anything that it does itself; but all calls
together do a bounded number of operations for each call, and as long as a call is in progress some
thread can do one.
-/

namespace UnifyPrototype.WaitingTaskList

open UnifyPrototype.Utils

variable {E : Type} {s s' s₁ : State E} {a i : ℕ} {pt : Point E} {p q : Option (Point E)} {k : ℕ}

/-! ## Operations and pauses -/

/-- The thread finds that its node is not linked yet. -/
def State.pauses (s : State E) (i : ℕ) : Bool :=
  match s.threads[i]? with
  | some (some (.readNext n)) => (s.node n).any (·.next = some n)
  | _ => false

/-- One for an operation of a call that is no pause. -/
def operation (s : State E) : Label E → ℕ
  | .advance i _ => if s.pauses i then 0 else 1
  | _ => 0

/-- What a call is paid. -/
def price : Label E → ℕ
  | .add _ _ _ _ => 16
  | .doneWaiting _ _ => 7
  | _ => 0

/-- What a thread has left of it, apart from what goes to the announcement of its task. -/
def left : Option (Point E) → ℕ
  | none => 0
  | some (.readWaiting _ _) => 11
  | some (.createNode _ _) => 10
  | some (.exchangeHead _ _ _) => 9
  | some (.setNext _ _ _ _) => 8
  | some (.setNextAgain _ _) | some (.setException _) => 7
  | some .recheckWaiting | some .clearWaiting => 6
  | some .exchangeNull => 5
  | some (.readNext _) => 4
  | some (.fail _ _ _) => 3
  | some (.free _ _ _) | some (.late _) => 2
  | some (.release _ _) | some (.lateRelease _) => 1

/-- What is left in all: five for each task that is still to be released, and what the threads have. -/
def State.potential (s : State E) : ℕ :=
  5 * (s.added.length - s.released.length) + tally left s.threads

/-- A reference that a thread has is still to be released. -/
lemma State.Placed.length_lt (h : s.Placed) (hi : s.threads[i]? = some p) {t : Added}
    (ht : carry t p = 1) : s.released.length < s.added.length := by
  obtain ⟨stack, chains, howned⟩ := h
  have hle := le_tally (carry t) hi
  have hcount : ∀ t' ∈ t :: s.released, (t :: s.released).count t' ≤ s.added.count t' := by
    intro t' _
    have hsum := howned.places t'
    rw [List.count_cons]
    split
    next heq =>
      obtain rfl : t = t' := by simpa using heq
      omega
    next => omega
  exact (List.subperm_ext_iff.mpr hcount).length_le

/-- An operation that is no pause uses something up. -/
lemma left_advance (hadvances : Advances s a pt s₁ p) :
    (s₁.released = s.released ∧ (left p < left (some pt) ∨ p = some pt)) ∨
      ∃ t, carry t (some pt) = 1 ∧ s₁.released = s.released ++ [t] ∧ left p ≤ left (some pt) + 3 := by
  cases hadvances with
  | wait | tooLate | exchangeHead | stillWaiting | notWaiting | setException | clearWaiting
  | readNext => exact .inl ⟨rfl, .inl (by simp [left])⟩
  | pause => exact .inl ⟨rfl, .inr rfl⟩
  | lateRelease t => exact .inr ⟨t, if_pos rfl, rfl, Nat.zero_le _⟩
  | release t next =>
    refine .inr ⟨t, if_pos rfl, rfl, ?_⟩
    cases next <;> simp [left]
  | exchangeNull =>
    refine .inl ⟨rfl, .inl ?_⟩
    cases s.head <;> simp [left]
  | late t | fail t =>
    obtain ⟨failed, heq⟩ := dependentTaskFailed_eq s t
    rw [heq]
    exact .inl ⟨rfl, .inl (by simp [left])⟩
  | createNode o t n hcreate =>
    obtain ⟨nodeCache, heap, rfl⟩ := createNode_eq hcreate
    exact .inl ⟨rfl, .inl (by simp [left])⟩
  | link o t n m =>
    obtain ⟨nodeCache, heap, heq⟩ := setNextNode_eq s (some m) n
    rw [heq]
    exact .inl ⟨rfl, .inl (by simp [left])⟩
  | linkFirst t n | linkFirstTask t n | linkAgain t n =>
    obtain ⟨nodeCache, heap, heq⟩ := setNextNode_eq s none n
    rw [heq]
    exact .inl ⟨rfl, .inl (by simp [left])⟩
  | free t n next node =>
    obtain ⟨heap, heq⟩ := free_eq s n node.fromCache
    rw [heq]
    exact .inl ⟨rfl, .inl (by simp [left])⟩

/-- Only a thread that finds a node unassigned stays where it is. -/
lemma pauses_of_same (hi : s.threads[i]? = some (some pt)) (hadvances : Advances s a pt s₁ (some pt)) :
    s.pauses i = true := by
  generalize hp : some pt = p at hadvances
  cases hadvances with
  | pause n node hnode hnext => simp [State.pauses, hi, hnode, hnext]
  | exchangeNull => cases hhead : s.head <;> simp [hhead] at hp
  | release t next => cases next <;> simp at hp
  | _ => simp at hp

/-- Each operation is paid for by the potential or by the price of its step. -/
lemma potential_step {b : Label E} (hplaced : s.Placed) (hstep : step s b = some s') :
    operation s b + s'.potential ≤ s.potential + price b := by
  cases steps hstep with
  | fork =>
    show 0 + (_ + tally left (s.threads ++ [none])) ≤ (_ + _) + 0
    rw [tally_append, tally_cons, tally_nil]
    simp [left]
  | add i o t hi =>
    have hset := tally_set left (some (.readWaiting o t)) hi
    simp only [left] at hset
    show 0 + (5 * ((s.added ++ [t]).length - s.released.length)
      + tally left (s.threads.set i (some (.readWaiting o t)))) ≤ s.potential + 16
    rw [List.length_append, List.length_singleton]
    unfold State.potential
    omega
  | doneWaiting i e hi =>
    have hset := tally_set left (some (.setException e)) hi
    simp only [left] at hset
    show 0 + (5 * (s.added.length - s.released.length)
      + tally left (s.threads.set i (some (.setException e)))) ≤ s.potential + 7
    unfold State.potential
    omega
  | reset =>
    show 0 + (5 * 0 + tally left s.threads) ≤ s.potential + 0
    unfold State.potential
    omega
  | retain | letGo => exact (Nat.zero_add _).le
  | @advance s₁ i a pt p hi hadvances =>
    obtain ⟨hthreads, hadded, -, -⟩ := hadvances.frame
    have hset := tally_set left p hi
    show (if s.pauses i then 0 else 1) + (5 * (s₁.added.length - s₁.released.length)
      + tally left (s₁.threads.set i p)) ≤ s.potential + 0
    unfold State.potential
    rw [hthreads, hadded]
    rcases left_advance hadvances with ⟨hreleased, hless | rfl⟩ | ⟨t, ht, hreleased, hmore⟩
    · rw [hreleased]
      split <;> omega
    · rw [pauses_of_same hi hadvances, hreleased, if_pos rfl]
      omega
    · -- the release pays for the way to the next node
      have hlt := hplaced.length_lt hi ht
      rw [hreleased, List.length_append, List.length_singleton]
      split <;> omega

/-! ## Somebody goes on -/

/-- There is memory left. -/
def State.Bounded (s : State E) : Prop :=
  ∃ b, ∀ a, b ≤ a → s.heap a = none

lemma bounded_advance (h : s.Bounded) (hadvances : Advances s a pt s₁ p) : s₁.Bounded := by
  obtain ⟨b, hb⟩ := h
  have hset : ∀ o n, (s.setNextNode o n).Bounded := by
    intro o n
    refine ⟨b, fun c hc => ?_⟩
    cases n with
    | cached j => exact hb c hc
    | heap d =>
      show Function.update s.heap d ((s.heap d).map _) c = none
      by_cases hcd : c = d
      · subst hcd
        rw [Function.update_self, hb c hc]
        rfl
      · rw [Function.update_of_ne hcd, hb c hc]
  cases hadvances with
  | wait | tooLate | lateRelease | exchangeHead | stillWaiting | notWaiting | setException
  | clearWaiting | exchangeNull | pause | readNext | release => exact ⟨b, hb⟩
  | late t | fail t =>
    obtain ⟨failed, heq⟩ := dependentTaskFailed_eq s t
    rw [heq]
    exact ⟨b, hb⟩
  | createNode o t n hcreate =>
    simp only [State.createNode] at hcreate
    split at hcreate
    · obtain ⟨rfl, -⟩ := Prod.mk.inj (Option.some.inj hcreate)
      exact ⟨b, hb⟩
    · split at hcreate
      · obtain ⟨rfl, -⟩ := Prod.mk.inj (Option.some.inj hcreate)
        refine ⟨max b (a + 1), fun c hc => ?_⟩
        have hne : c ≠ a := by omega
        exact (Function.update_of_ne hne _ _).trans (hb c (by omega))
      · cases hcreate
  | link | linkFirst | linkFirstTask | linkAgain => exact hset _ _
  | free t n next node =>
    cases node.fromCache with
    | true => exact ⟨b, hb⟩
    | false =>
      cases n with
      | cached j => exact ⟨b, hb⟩
      | heap d =>
        refine ⟨b, fun c hc => ?_⟩
        show Function.update s.heap d none c = none
        by_cases hcd : c = d
        · rw [hcd, Function.update_self]
        · rw [Function.update_of_ne hcd, hb c hc]

lemma bounded (h : Reaches step (init k) s) : s.Bounded := by
  refine h.invariant ⟨0, fun _ _ => rfl⟩ fun s b s' hs _ hstep => ?_
  cases steps hstep with
  | fork | add | doneWaiting | reset | retain | letGo => exact hs
  | advance i a hi hadvances =>
    obtain ⟨b, hb⟩ := bounded_advance hs hadvances
    exact ⟨b, hb⟩

/-- Only a node that is not there, or the want of memory, keeps a thread from its next operation. -/
lemma exists_step (hnode : ∀ n, pt = .readNext n ∨ (∃ t next, pt = .free t n next) →
    ∃ node, s.node n = some node) (hbounded : s.Bounded) : ∃ a r, pt.step s a = some r := by
  obtain ⟨b, hb⟩ := hbounded
  cases pt with
  | createNode o t =>
    refine ⟨b, ?_⟩
    simp only [Point.step, State.createNode, hb b le_rfl, if_true]
    split <;> exact ⟨_, rfl⟩
  | readNext n =>
    obtain ⟨node, hn⟩ := hnode n (.inl rfl)
    exact ⟨b, _, by simp only [Point.step, hn, Option.map_some]; rfl⟩
  | free t n next =>
    obtain ⟨node, hn⟩ := hnode n (.inr ⟨t, next, rfl⟩)
    exact ⟨b, _, by simp only [Point.step, hn, Option.map_some]; rfl⟩
  | _ => exact ⟨b, _, rfl⟩

/-- A thread in a call can go on, along permitted runs. -/
lemma exists_advance (h : RunsTo step Permitted (init k) s)
    (hi : s.threads[i]? = some (some pt)) : ∃ a s', step s (.advance i a) = some s' := by
  have hnode : ∀ n, pt = .readNext n ∨ (∃ t next, pt = .free t n next) →
      ∃ node, s.node n = some node := by
    rintro n (rfl | ⟨t, next, rfl⟩)
    · exact node_not_deleted h (.inl hi)
    · exact node_not_deleted h (.inr ⟨t, next, hi⟩)
  obtain ⟨a, r, hr⟩ := exists_step hnode (bounded h.reaches)
  exact ⟨a, State.goto i r, by simp only [step, hi, hr, Option.map_some]⟩

/-- A thread that pauses does so for one that is about to link the node. -/
lemma linking_of_pauses (h : RunsTo step Permitted (init k) s) (hpauses : s.pauses i = true) :
    ∃ (j : ℕ) (o : Overload) (t : Added) (n : NodeRef) (old : Option NodeRef),
      s.threads[j]? = some (some (.setNext o t n old)) := by
  obtain ⟨stack, chains, howned⟩ := placed h
  unfold State.pauses at hpauses
  split at hpauses
  next n hi =>
    obtain ⟨node, hnode, hnext⟩ := (Option.any_eq_true _ _).mp hpauses
    obtain ⟨c, hc, hhead⟩ := howned.chain hi
    cases c with
    | nil => cases hhead
    | cons x rest =>
      obtain ⟨m, t⟩ := x
      obtain rfl : m = n := Option.some.inj hhead
      rcases (howned.taken _ (List.mem_of_getElem? hc)).1 with ⟨⟨node', hnode', -, ho⟩, hne⟩ | ⟨-, j, o, hj⟩
      · obtain rfl := Option.some.inj ((node_of_assigned hnode').symm.trans hnode)
        rw [ho] at hnext
        exact absurd (by simpa using hnext) hne
      · exact ⟨j, o, t, m, _, hj⟩
  next => cases hpauses

/-- **The list never stands still, and all calls together do a bounded number of operations.** In every
run whose second writes are of nodes that their calls have made, all calls together have done at most
16 operations for each call of `add` and 7 for each of `doneWaiting`, not counting pauses; as long as a
call is in progress some thread can do such an operation; and every thread in a call can make its
next step. -/
theorem list_bounded {bs : List (Label E)} (h : execute step writesOwnNode (init k) bs = some s) :
    totalCost step operation (init k) bs ≤ tally price bs ∧
    (¬ s.Idle → ∃ i a s', step s (.advance i a) = some s' ∧ operation s (.advance i a) = 1) ∧
    ∀ i pt, s.threads[i]? = some (some pt) → ∃ a s', step s (.advance i a) = some s' := by
  have hrun : RunsTo step Permitted (init k) s := .of_execute bs (fun _ _ h => h) h
  refine ⟨?_, fun hidle => ?_, fun i pt hi => exists_advance hrun hi⟩
  · have htotal : totalCost step operation (init k) bs + s.potential
        ≤ (init k : State E).potential + tally price bs :=
      totalCost_le (I := fun s => s.Called ∧ s.Waited ∧ s.Awaited ∧ s.Placed) bs h
        ⟨called_init k, waited_init k, awaited_init k, placed_init k⟩
        fun s b s' ⟨hcalled, hwaited, hawaited, hplaced⟩ hpermitted hstep =>
          ⟨⟨called_step hcalled hstep, waited_step hwaited hstep, awaited_step hawaited hstep,
            placed_step hcalled hwaited hawaited hplaced hpermitted hstep⟩,
            potential_step hplaced hstep⟩
    have hzero : (init k : State E).potential = 0 := rfl
    omega
  · unfold State.Idle at hidle
    push Not at hidle
    obtain ⟨q, hq, hne⟩ := hidle
    obtain ⟨i, hi⟩ := List.getElem?_of_mem hq
    obtain ⟨pt, rfl⟩ := Option.ne_none_iff_exists'.mp hne
    cases hpauses : s.pauses i with
    | false =>
      obtain ⟨a, s', hs'⟩ := exists_advance hrun hi
      exact ⟨i, a, s', hs', by simp [operation, hpauses]⟩
    | true =>
      obtain ⟨j, o, t, n, old, hj⟩ := linking_of_pauses hrun hpauses
      obtain ⟨a, s', hs'⟩ := exists_advance hrun hj
      exact ⟨j, a, s', hs', by simp [operation, State.pauses, hj]⟩

/-- The calls of two epochs: three of `add`, two of `doneWaiting`. -/
theorem list_bounded_twoEpochs :
    totalCost step operation (init 0 : State ℕ) twoEpochs ≤ 16 * 3 + 7 * 2 ∧
      totalCost step operation (init 0 : State ℕ) twoEpochs = 34 := by
  have hrun : ∃ s : State ℕ, execute step writesOwnNode (init 0) twoEpochs = some s := ⟨_, rfl⟩
  obtain ⟨s, hs⟩ := hrun
  exact ⟨(list_bounded hs).1, rfl⟩

end UnifyPrototype.WaitingTaskList
