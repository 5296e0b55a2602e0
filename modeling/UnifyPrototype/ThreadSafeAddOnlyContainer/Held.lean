import UnifyPrototype.ThreadSafeAddOnlyContainer.Model
import UnifyPrototype.Utils.Linked
import UnifyPrototype.Utils.Threads

/-!
# Every object is held exactly once

A node belongs to the call that has made it until its compare-exchange succeeds, and to the list from
then on. So while a call sets the link of its node again and again, the list does not see it, and the
compare-exchange puts a node before the list that its link points to.
-/

namespace UnifyPrototype.ThreadSafeAddOnlyContainer

open UnifyPrototype.Utils

variable {T Args : Type} {construct : Args → T} {s s' : State T Args} {i a : ℕ}
  {p q : Option (Point Args)}

/-! ## Whose a node is -/

/-- What `next_` says, for each node on the heap. -/
def State.next (s : State T Args) (a : ℕ) : Option (Option ℕ) :=
  (s.heap a).map Node.next

/-- The node that the call has made and not published yet. -/
def pending : Option (Point Args) → List ℕ
  | some (.compareExchange _ newNode) | some (.setNext _ newNode) => [newNode]
  | _ => []

/-- The node that the call has published, and whose address it is going to return. -/
def addressed : Option (Point Args) → List ℕ
  | some (.address newNode) => [newNode]
  | _ => []

/-- How many calls have made the node and not published it yet. -/
def State.pendings (s : State T Args) (a : ℕ) : ℕ :=
  tally (fun p => (pending p).count a) s.threads

/-- One if there is such a node on the heap. -/
def State.allocated (s : State T Args) (a : ℕ) : ℕ :=
  if (s.heap a).isSome then 1 else 0

/-- The first node that is still there. -/
def State.head (s : State T Args) : Option ℕ :=
  match s.destructor with
  | .notCalled | .load => s.front
  | .next node => node
  | .delete node _ => some node
  | .returned => none

/-! ## The invariant -/

/-- From `head` on, the nodes that are published and not deleted are linked in the order of their
compare-exchanges, last first; a node on the heap is one of these or belongs to one call; before its
compare-exchange a node points to what the call expects. -/
structure State.Holds (s : State T Args) : Prop where
  linked : ∃ l, Linked s.next s.head l ∧ s.deleted ++ l = s.published.reverse
  owned : ∀ a, s.allocated a + s.deleted.count a = s.published.count a + s.pendings a
  once : ∀ a, s.published.count a + s.pendings a ≤ 1
  expected : ∀ (i : ℕ) e a, s.threads[i]? = some (some (.compareExchange e a)) → s.next a = some e
  returned : ∀ a, s.published.count a
    = s.returned.count a + tally (fun p => (addressed p).count a) s.threads
  idle : s.destructor ≠ .notCalled → s.Idle
  untouched : s.destructor = .notCalled ∨ s.destructor = .load → s.deleted = []
  first : s.deleted = [] → s.head = s.front
  follows : ∀ a o, s.destructor = .delete a o → s.next a = some o

/-- While a call is in progress, the destructor is not. -/
lemma State.Holds.notCalled (h : s.Holds) {pt : Point Args}
    (hi : s.threads[i]? = some (some pt)) : s.destructor = .notCalled := by
  by_contra hne
  cases h.idle hne _ (List.mem_of_getElem? hi)

/-- Before the destructor is called, the list begins at `front_` and has all published nodes. -/
lemma State.Holds.linked_front (h : s.Holds) (hd : s.destructor = .notCalled) :
    Linked s.next s.front s.published.reverse := by
  obtain ⟨l, hl, hdeleted⟩ := h.linked
  have hnone := h.untouched (.inl hd)
  rw [hnone, List.nil_append] at hdeleted
  subst hdeleted
  simpa only [State.head, hd] using hl

lemma allocated_le (s : State T Args) (a : ℕ) : s.allocated a ≤ 1 := by
  unfold State.allocated
  split <;> omega

/-- The node of a call is in no list. -/
lemma State.Holds.of_pending (h : s.Holds) (hi : s.threads[i]? = some p) (ha : a ∈ pending p) :
    a ∉ s.published := by
  intro hmem
  have hpublished := List.one_le_count_iff.mpr hmem
  have hpending := List.one_le_count_iff.mpr ha
  have hle : (pending p).count a ≤ s.pendings a := le_tally (fun p => (pending p).count a) hi
  have honce := h.once a
  omega

/-- The node of a call belongs to no other call. -/
lemma State.Holds.of_pendings (h : s.Holds) {j : ℕ} (hij : i ≠ j) (hi : s.threads[i]? = some p)
    (hj : s.threads[j]? = some q) (ha : a ∈ pending p) : a ∉ pending q := by
  intro hmem
  have hp := List.one_le_count_iff.mpr ha
  have hq := List.one_le_count_iff.mpr hmem
  have hle : (pending p).count a + (pending q).count a ≤ s.pendings a :=
    add_le_tally (fun p => (pending p).count a) hij hi hj
  have honce := h.once a
  omega

/-! ## The operations of a call -/

/-- What every operation of a call does: only its own node changes, and the node is allocated,
published and returned in this order. -/
lemma holds_move (h : s.Holds) (hi : s.threads[i]? = some p) (hd : s.destructor = .notCalled)
    (hsame : (s'.destructor, s'.deleted) = (s.destructor, s.deleted))
    (hthreads : s'.threads = s.threads.set i q)
    (hlinked : Linked s'.next s'.front s'.published.reverse)
    (hframe : ∀ a, s.next a ≠ none → a ∉ pending p → s'.next a = s.next a)
    (howned : ∀ a, s'.allocated a + s.published.count a + (pending p).count a
      = s.allocated a + s'.published.count a + (pending q).count a)
    (hexpected : ∀ e a, q = some (.compareExchange e a) → s'.next a = some e)
    (hreturned : ∀ a, s'.published.count a + s.returned.count a + (addressed p).count a
      = s.published.count a + s'.returned.count a + (addressed q).count a) : s'.Holds := by
  obtain ⟨hd', hdeleted⟩ := by simpa only [Prod.mk.injEq] using hsame
  have hnone := h.untouched (.inl hd)
  -- only the call of thread `i` changes, so the sums over all calls change as its own terms do
  have hbalance : ∀ a, s'.allocated a = s'.published.count a + s'.pendings a := by
    intro a
    have hset := tally_set (fun p => (pending p).count a) q hi
    have hbefore := h.owned a
    have hafter := howned a
    simp only [hnone, List.count_nil] at hbefore
    unfold State.pendings at *
    rw [hthreads]
    omega
  refine ⟨⟨s'.published.reverse, ?_, ?_⟩, ?_, ?_, ?_, ?_, ?_, ?_, ?_, ?_⟩
  · simpa only [State.head, hd', hd] using hlinked
  · rw [hdeleted, hnone, List.nil_append]
  · intro a
    rw [hdeleted, hnone, List.count_nil, Nat.add_zero]
    exact hbalance a
  · intro a
    rw [← hbalance a]
    exact allocated_le s' a
  · intro j e a hj
    rw [hthreads] at hj
    rcases getElem?_goto hj with ⟨-, hq⟩ | ⟨hne, hj'⟩
    · exact hexpected e a hq
    · -- another call's node is not the one that this call works on
      have hnext := h.expected j e a hj'
      have hother := h.of_pendings hne hj' hi (a := a) (by simp [pending])
      rw [hframe a (by simp [hnext]) hother, hnext]
  · intro a
    have hset := tally_set (fun p => (addressed p).count a) q hi
    have hbefore := h.returned a
    have hafter := hreturned a
    rw [hthreads]
    omega
  · intro hne
    exact absurd (hd'.trans hd) hne
  · intro _
    rw [hdeleted, hnone]
  · intro _
    simp only [State.head, hd', hd]
  · intro a o ho
    rw [hd', hd] at ho
    cases ho

/-- An operation that publishes nothing leaves the list as it is. -/
lemma linked_same (h : s.Holds) (hi : s.threads[i]? = some p) (hd : s.destructor = .notCalled)
    (hsame : (s'.front, s'.published) = (s.front, s.published))
    (hframe : ∀ a, s.next a ≠ none → a ∉ pending p → s'.next a = s.next a) :
    Linked s'.next s'.front s'.published.reverse := by
  obtain ⟨hfront, hpublished⟩ := by simpa only [Prod.mk.injEq] using hsame
  have hlinked := h.linked_front hd
  rw [hfront, hpublished]
  apply hlinked.congr
  intro a ha
  obtain ⟨o, ho⟩ := hlinked.exists_next ha
  -- a node of the list is published, so it is not the one that the call works on
  apply hframe a (by simp [ho])
  intro hmem
  exact h.of_pending hi hmem (List.mem_reverse.mp ha)

/-- An operation that moves the call only. -/
lemma holds_goto (h : s.Holds) (hi : s.threads[i]? = some p) (hd : s.destructor = .notCalled)
    (hpending : pending q = pending p) (haddressed : addressed q = addressed p)
    (hq : ∀ e a, q ≠ some (.compareExchange e a)) :
    State.Holds { s with threads := s.threads.set i q } := by
  refine holds_move h hi hd rfl rfl (linked_same h hi hd rfl fun _ _ _ => rfl) ?_ ?_ ?_ ?_
  · intro a _ _
    rfl
  · intro a
    rw [hpending]
    rfl
  · intro e a hexchange
    exact absurd hexchange (hq e a)
  · intro a
    rw [haddressed]

/-- An operation of an insertion keeps what is held. -/
lemma holds_advance {pt : Point Args} {r : State T Args × Option (Point Args)} (h : s.Holds)
    (hi : s.threads[i]? = some (some pt)) (hstep : pt.step s = some r) :
    State.Holds { r.1 with threads := s.threads.set i r.2 } := by
  have hd := h.notCalled hi
  cases pt with
  | load args =>
    obtain rfl := Option.some.inj hstep
    exact holds_goto h hi hd rfl rfl nofun
  | new expected args => cases hstep
  | compareExchange expected newNode =>
    have hnext := h.expected i expected newNode hi
    simp only [Point.step] at hstep
    split at hstep
    next heq =>
      obtain rfl := Option.some.inj hstep
      refine holds_move h hi hd rfl rfl ?_ ?_ ?_ ?_ ?_
      · -- the node points to what `front_` was
        show Linked s.next (some newNode) (s.published ++ [newNode]).reverse
        rw [List.reverse_append, List.reverse_singleton, List.singleton_append]
        apply Linked.cons hnext
        rw [← heq]
        exact h.linked_front hd
      · intro a _ _
        rfl
      · intro a
        show s.allocated a + _ + List.count a [newNode] = s.allocated a + _ + List.count a []
        rw [List.count_append, List.count_nil]
        omega
      · intro e a hq
        cases hq
      · intro a
        show List.count a (s.published ++ [newNode]) + List.count a s.returned + List.count a []
          = List.count a s.published + List.count a s.returned + List.count a [newNode]
        rw [List.count_append, List.count_nil]
        omega
    next =>
      obtain rfl := Option.some.inj hstep
      exact holds_goto h hi hd rfl rfl nofun
  -- the compare-exchange has failed: the node is still the call's own
  | setNext expected newNode =>
    obtain ⟨node, hnode, rfl⟩ := Option.map_eq_some_iff.mp hstep
    have hframe : ∀ a, s.next a ≠ none →
        a ∉ pending (some (.setNext expected newNode) : Option (Point Args)) →
        State.next { s with heap := Function.update s.heap newNode (some (node.setNext expected)) } a
          = s.next a := by
      intro a _ ha
      have hne : a ≠ newNode := fun heq => ha (List.mem_singleton.mpr heq)
      simp only [State.next, Function.update_of_ne hne]
    refine holds_move h hi hd rfl rfl (linked_same h hi hd rfl hframe) hframe ?_ ?_ ?_
    · intro a
      have hsame : State.allocated { s with
          heap := Function.update s.heap newNode (some (node.setNext expected)) } a = s.allocated a := by
        by_cases ha : a = newNode
        · simp [State.allocated, ha, hnode]
        · simp [State.allocated, ha]
      exact congrArg (· + _ + _) hsame
    · intro e a hq
      obtain ⟨rfl, rfl⟩ : expected = e ∧ newNode = a := by simpa using hq
      simp [State.next, Node.setNext]
    · intro a
      rfl
  | address newNode =>
    obtain ⟨node, -, rfl⟩ := Option.map_eq_some_iff.mp hstep
    refine holds_move h hi hd rfl rfl (linked_same h hi hd rfl fun _ _ _ => rfl) ?_ ?_ ?_ ?_
    · intro a _ _
      rfl
    · intro a
      rfl
    · intro e a hq
      cases hq
    · intro a
      show List.count a s.published + List.count a s.returned + List.count a [newNode]
        = List.count a s.published + List.count a (s.returned ++ [newNode]) + List.count a []
      rw [List.count_append, List.count_nil]
      omega

/-- `new` at a free address makes a node that points to what the call has loaded. -/
lemma holds_new {expected : Option ℕ} {args : Args} (h : s.Holds)
    (hi : s.threads[i]? = some (some (.new expected args))) (ha : s.heap a = none) :
    State.Holds { s with
      heap := Function.update s.heap a (some ⟨expected, construct args⟩)
      threads := s.threads.set i (some (.compareExchange expected a)) } := by
  have hd := h.notCalled hi
  have hframe : ∀ b, s.next b ≠ none → b ∉ pending (some (.new expected args)) →
      State.next { s with
        heap := Function.update s.heap a (some ⟨expected, construct args⟩)
        threads := s.threads.set i (some (.compareExchange expected a)) } b = s.next b := by
    intro b hb _
    have hne : b ≠ a := by
      rintro rfl
      simp [State.next, ha] at hb
    simp only [State.next, Function.update_of_ne hne]
  refine holds_move h hi hd rfl rfl (linked_same h hi hd rfl hframe) hframe ?_ ?_ ?_
  · intro b
    by_cases hb : b = a
    · subst hb
      simp [State.allocated, ha, pending]
      omega
    · simp [State.allocated, hb, pending, Ne.symm hb]
  · intro e b hq
    obtain ⟨rfl, rfl⟩ : expected = e ∧ a = b := by simpa using hq
    simp [State.next]
  · intro b
    rfl

/-! ## The destructor -/

/-- The node that comes first is on the heap, and the destructor goes on behind it. -/
lemma State.Holds.of_head (h : s.Holds) (ha : s.head = some a) :
    ∃ node l, s.heap a = some node ∧ Linked s.next node.next l ∧
      s.deleted ++ a :: l = s.published.reverse := by
  obtain ⟨l, hl, hdeleted⟩ := h.linked
  rw [ha] at hl
  cases hl with
  | cons hnext hrest =>
    obtain ⟨node, hnode, rfl⟩ := Option.map_eq_some_iff.mp hnext
    exact ⟨node, _, hnode, hrest, hdeleted⟩

/-- What a step of the destructor keeps if it deletes nothing. -/
lemma holds_destructor {d : Destructor} (h : s.Holds) (hcalled : s.destructor ≠ .notCalled)
    (hhead : State.head { s with destructor := d } = s.head) (hd : d ≠ .load)
    (hnot : d ≠ .notCalled) (hfollows : ∀ a o, d = .delete a o → s.next a = some o) :
    State.Holds { s with destructor := d } := by
  refine ⟨?_, h.owned, h.once, h.expected, h.returned, ?_, ?_, ?_, hfollows⟩
  · rw [hhead]
    exact h.linked
  · intro _
    exact h.idle hcalled
  · rintro (hd' | hd')
    · exact absurd hd' hnot
    · exact absurd hd' hd
  · rw [hhead]
    exact h.first

/-- The destructor deletes the first node. -/
lemma holds_delete {o : Option ℕ} (h : s.Holds) (hd : s.destructor = .delete a o) :
    State.Holds { s with
      heap := Function.update s.heap a none
      deleted := s.deleted ++ [a]
      destructor := .next o } := by
  obtain ⟨node, l, hnode, hl, hdeleted⟩ := h.of_head (a := a) (by simp only [State.head, hd])
  have hidle := h.idle (by simp [hd])
  -- `delete` was given the successor that the destructor had read before
  have ho : node.next = o := by
    have hnext := h.follows a o hd
    simpa [State.next, hnode] using hnext
  have hlinked : Linked s.next (some a) (a :: l) := .cons (by simp [State.next, hnode]) hl
  obtain ⟨ha, -⟩ := List.nodup_cons.mp hlinked.nodup
  refine ⟨⟨l, ?_, ?_⟩, ?_, h.once, ?_, h.returned, fun _ => hidle, ?_, ?_, ?_⟩
  · -- the nodes behind it do not change
    rw [ho] at hl
    apply hl.congr
    intro b hb
    have hne : b ≠ a := ne_of_mem_of_not_mem hb ha
    simp only [State.next, Function.update_of_ne hne]
  · rw [← hdeleted, List.append_assoc, List.singleton_append]
  · intro b
    have howned := h.owned b
    rw [List.count_append]
    by_cases hb : b = a
    · subst hb
      simp only [State.allocated, State.pendings, hnode, Option.isSome_some, if_true,
        Function.update_self, Option.isSome_none, Bool.false_eq_true, if_false,
        List.count_singleton_self] at howned ⊢
      omega
    · simp only [State.allocated, State.pendings, Function.update_of_ne hb,
        List.count_singleton, beq_iff_eq, Ne.symm hb, if_false] at howned ⊢
      omega
  · intro j e b hj
    cases hidle _ (List.mem_of_getElem? hj)
  · rintro (hd' | hd') <;> cases hd'
  · intro hnil
    simp at hnil
  · intro b o' hd'
    cases hd'

/-- An operation of the destructor keeps what is left. -/
lemma holds_advanceDestructor {r : State T Args × Destructor} (h : s.Holds)
    (hstep : s.destructor.step s = some r) : State.Holds { r.1 with destructor := r.2 } := by
  have hcalled : s.destructor ≠ .notCalled := by
    intro hd
    rw [hd] at hstep
    cases hstep
  cases hd : s.destructor with
  | notCalled => exact absurd hd hcalled
  | returned =>
    rw [hd] at hstep
    cases hstep
  | load =>
    rw [hd] at hstep
    obtain rfl := Option.some.inj hstep
    apply holds_destructor h hcalled (by simp only [State.head, hd]) <;> simp
  | next node =>
    rw [hd] at hstep
    cases node with
    | none =>
      obtain rfl := Option.some.inj hstep
      apply holds_destructor h hcalled (by simp only [State.head, hd]) <;> simp
    | some a =>
      obtain ⟨node, hnode, rfl⟩ := Option.map_eq_some_iff.mp hstep
      apply holds_destructor h hcalled (by simp only [State.head, hd]) (by simp) (by simp)
      intro b o ho
      obtain ⟨rfl, rfl⟩ : a = b ∧ node.next = o := by simpa using ho
      simp [State.next, hnode]
  | delete a o =>
    rw [hd] at hstep
    obtain ⟨node, -, rfl⟩ := Option.map_eq_some_iff.mp hstep
    exact holds_delete h hd

/-! ## Every step, every run -/

/-- So does every step. -/
lemma holds_step {b : Label Args} (h : s.Holds) (hstep : step construct s b = some s') :
    s'.Holds := by
  cases b with
  | fork =>
    obtain rfl := Option.some.inj hstep
    refine ⟨h.linked, ?_, ?_, ?_, ?_, ?_, h.untouched, h.first, h.follows⟩
    · intro a
      have howned := h.owned a
      simpa [State.pendings, pending, State.allocated] using howned
    · intro a
      have honce := h.once a
      simpa [State.pendings, pending] using honce
    · intro j e a hj
      exact h.expected j e a (getElem?_fork hj)
    · intro a
      have hreturned := h.returned a
      simpa [addressed] using hreturned
    · intro hne p hp
      rcases List.mem_append.mp hp with hp | hp
      · exact h.idle hne p hp
      · exact List.mem_singleton.mp hp
  | makeAndHold i args =>
    simp only [step] at hstep
    split at hstep
    next hd hi =>
      obtain rfl := Option.some.inj hstep
      exact holds_goto h hi hd rfl rfl nofun
    next => cases hstep
  | advance i =>
    simp only [step] at hstep
    split at hstep
    next pt hi =>
      obtain ⟨r, hr, rfl⟩ := Option.map_eq_some_iff.mp hstep
      exact holds_advance h hi hr
    next => cases hstep
  | new i a =>
    simp only [step] at hstep
    split at hstep
    next expected args hi ha =>
      obtain rfl := Option.some.inj hstep
      exact holds_new h hi ha
    next => cases hstep
  -- the constructor throws: `new` gives the memory back, and there is no node
  | throw i =>
    simp only [step] at hstep
    split at hstep
    next expected args hi =>
      obtain rfl := Option.some.inj hstep
      exact holds_goto h hi (h.notCalled hi) rfl rfl nofun
    next => cases hstep
  -- no call is in progress, and the destructor begins where `front_` points
  | destroy =>
    simp only [step] at hstep
    split at hstep
    next hcall =>
      obtain rfl := Option.some.inj hstep
      refine ⟨?_, h.owned, h.once, h.expected, h.returned, fun _ => hcall.2, ?_, ?_, ?_⟩
      · obtain ⟨l, hl, hdeleted⟩ := h.linked
        have hhead : s.head = s.front := by simp only [State.head, hcall.1]
        rw [hhead] at hl
        exact ⟨l, hl, hdeleted⟩
      · intro _
        exact h.untouched (.inl hcall.1)
      · intro _
        rfl
      · intro a o hd
        cases hd
    next => cases hstep
  | advanceDestructor =>
    obtain ⟨r, hr, rfl⟩ := Option.map_eq_some_iff.mp hstep
    exact holds_advanceDestructor h hr

/-- It holds in every reachable state. -/
theorem holds (h : Reachable construct s) : s.Holds := by
  refine h.invariant ⟨⟨[], .nil, rfl⟩, ?_, ?_, ?_, ?_, ?_, ?_, ?_, ?_⟩ ?_
  · intro a
    rfl
  · intro a
    exact Nat.zero_le 1
  · intro i e a hi
    simp at hi
  · intro a
    rfl
  · intro hne
    exact absurd rfl hne
  · intro _
    rfl
  · intro _
    rfl
  · intro a o hd
    cases hd
  · intro s b s' hs _ hstep
    exact holds_step hs hstep

/-! ## Exactly once -/

/-- From any node on, the destructor comes to the end of the list. -/
lemma destructor_deletes (l : List ℕ) {o : Option ℕ} (h : s.Holds) (hd : s.destructor = .next o)
    (hl : s.deleted ++ l = s.published.reverse) :
    ∃ s', Reaches (step construct) s s' ∧ s'.destructor = .returned := by
  induction l generalizing s o with
  | nil =>
    obtain ⟨l', hlinked, hl'⟩ := h.linked
    obtain rfl := List.append_cancel_left (hl'.trans hl.symm)
    simp only [State.head, hd] at hlinked
    cases hlinked
    have hstep : step construct s .advanceDestructor = some { s with destructor := .returned } := by
      simp [step, hd, Destructor.step]
    exact ⟨_, .tail .refl trivial hstep, rfl⟩
  -- it reads the successor, deletes the node, and has one node less before it
  | cons a l ih =>
    obtain ⟨l', hlinked, hl'⟩ := h.linked
    obtain rfl := List.append_cancel_left (hl'.trans hl.symm)
    obtain rfl : o = some a := by
      simp only [State.head, hd] at hlinked
      cases hlinked
      rfl
    obtain ⟨node, -, hnode, -, -⟩ := h.of_head (a := a) (by simp only [State.head, hd])
    have hread : step construct s .advanceDestructor
        = some { s with destructor := .delete a node.next } := by
      simp [step, hd, Destructor.step, hnode]
    have hread' := holds_step h hread
    have hdelete : step construct { s with destructor := .delete a node.next } .advanceDestructor
        = some { s with
            heap := Function.update s.heap a none
            deleted := s.deleted ++ [a]
            destructor := .next node.next } := by
      simp [step, Destructor.step, hnode]
    obtain ⟨s', hreaches, hreturned⟩ := ih (holds_step hread' hdelete) rfl (by simpa using hl)
    have hone : Reaches (step construct) s _ := RunsTo.refl.tail trivial hread
    have htwo := hone.tail trivial hdelete
    exact ⟨s', htwo.trans hreaches, hreturned⟩

/-- The destructor comes to the end of the list. -/
lemma returns_of_next {o : Option ℕ} (h : s.Holds) (hd : s.destructor = .next o) :
    ∃ s', Reaches (step construct) s s' ∧ s'.destructor = .returned := by
  obtain ⟨l, -, hl⟩ := h.linked
  exact destructor_deletes l h hd hl

/-- Once the destructor is called it returns. -/
lemma destructor_returns (h : s.Holds) (hcalled : s.destructor ≠ .notCalled) :
    ∃ s', Reaches (step construct) s s' ∧ s'.destructor = .returned := by
  cases hd : s.destructor with
  | notCalled => exact absurd hd hcalled
  | returned => exact ⟨s, .refl, hd⟩
  | load =>
    have hstep : step construct s .advanceDestructor
        = some { s with destructor := .next s.front } := by
      simp [step, hd, Destructor.step]
    obtain ⟨s', hreaches, hreturned⟩ := returns_of_next (holds_step h hstep) rfl
    exact ⟨s', (RunsTo.tail .refl trivial hstep).trans hreaches, hreturned⟩
  | next o => exact returns_of_next h hd
  | delete a o =>
    obtain ⟨node, -, hnode, -, -⟩ := h.of_head (a := a) (by simp only [State.head, hd])
    have hstep : step construct s .advanceDestructor
        = some { s with
            heap := Function.update s.heap a none
            deleted := s.deleted ++ [a]
            destructor := .next o } := by
      simp [step, hd, Destructor.step, hnode]
    obtain ⟨s', hreaches, hreturned⟩ := returns_of_next (holds_step h hstep) rfl
    exact ⟨s', (RunsTo.tail .refl trivial hstep).trans hreaches, hreturned⟩

/-- When no call is in progress, the addresses returned are those of the published nodes. -/
lemma State.Holds.returned_perm (h : s.Holds) (hidle : s.Idle) :
    s.returned.Perm s.published := by
  apply List.perm_iff_count.mpr
  intro a
  have hnone : tally (fun p => (addressed p).count a) s.threads = 0 := by
    apply tally_eq_zero.mpr
    intro p hp
    rw [hidle p hp]
    rfl
  have hreturned := h.returned a
  omega

/-- When the destructor has returned, it has deleted the list and nothing is left. -/
lemma State.Holds.deleted_eq (h : s.Holds) (hd : s.destructor = .returned) :
    s.deleted = s.published.reverse ∧ ∀ a, s.heap a = none := by
  have hdeleted : s.deleted = s.published.reverse := by
    obtain ⟨l, hlinked, hl⟩ := h.linked
    simp only [State.head, hd] at hlinked
    cases hlinked
    rwa [List.append_nil] at hl
  refine ⟨hdeleted, fun a => ?_⟩
  have hidle := h.idle (by simp [hd])
  have hnone : s.pendings a = 0 := by
    apply tally_eq_zero.mpr
    intro p hp
    rw [hidle p hp]
    rfl
  have howned := h.owned a
  rw [hdeleted, List.count_reverse, hnone] at howned
  have hzero : s.allocated a = 0 := by omega
  by_contra hne
  obtain ⟨node, hnode⟩ := Option.ne_none_iff_exists'.mp hne
  simp [State.allocated, hnode] at hzero

/-- **Every object is held exactly once.** Until the destructor deletes the first node, the nodes that
one comes to from `front_` are a list without repetition of the nodes whose compare-exchange has
succeeded. When no call is in progress, the addresses that were returned are those of these nodes, each
once. Once the destructor is called it returns, and then it has deleted each of them once and nothing
else. -/
theorem held_exactly_once (h : Reachable construct s) :
    (s.deleted = [] → ∃ l, Linked s.next s.front l ∧ l.Nodup ∧ l.Perm s.published ∧
      ∀ a, Follows s.next s.front a ↔ a ∈ s.published) ∧
    (s.Idle → s.returned.Nodup ∧ s.returned.Perm s.published) ∧
    (s.destructor ≠ .notCalled → ∃ s', Reaches (step construct) s s' ∧ s'.destructor = .returned) ∧
    (s.destructor = .returned → s.deleted.Nodup ∧ s.deleted.Perm s.published ∧
      s.deleted.Perm s.returned ∧ ∀ a, s.heap a = none) := by
  have hholds := holds h
  have hnodup : s.published.Nodup := by
    apply List.nodup_iff_count_le_one.mpr
    intro a
    have honce := hholds.once a
    omega
  refine ⟨?_, ?_, destructor_returns hholds, ?_⟩
  · intro hnone
    obtain ⟨l, hl, hdeleted⟩ := hholds.linked
    rw [hnone, List.nil_append] at hdeleted
    rw [hholds.first hnone] at hl
    have hperm : l.Perm s.published := hdeleted ▸ List.reverse_perm s.published
    refine ⟨l, hl, hl.nodup, hperm, ?_⟩
    intro a
    rw [← hl.mem_iff, hperm.mem_iff]
  · intro hidle
    have hperm := hholds.returned_perm hidle
    exact ⟨hperm.nodup_iff.mpr hnodup, hperm⟩
  · intro hd
    obtain ⟨hdeleted, hnone⟩ := hholds.deleted_eq hd
    have hperm : s.deleted.Perm s.published := hdeleted ▸ List.reverse_perm s.published
    have hidle := hholds.idle (by simp [hd])
    exact ⟨hperm.nodup_iff.mpr hnodup, hperm, hperm.trans (hholds.returned_perm hidle).symm, hnone⟩

/-- Thread 0 loads and makes its node; thread 1 loads, makes its node and publishes it, so the
compare-exchange of thread 0 fails once; when both have returned, the destructor deletes both nodes. -/
def retried : List (Label ℕ) :=
  [Label.fork, .fork, .makeAndHold 0 5, .advance 0, .makeAndHold 1 6, .advance 1, .new 0 7, .new 1 3]
    ++ List.replicate 2 (Label.advance 1) ++ List.replicate 4 (Label.advance 0)
    ++ [Label.destroy] ++ List.replicate 6 Label.advanceDestructor

theorem held_exactly_once_retried : ∃ s : State ℕ ℕ, s.published = [3, 7] ∧
    s.deleted.Perm s.published ∧ s.deleted.Perm s.returned ∧ ∀ a, s.heap a = none := by
  have hrun : ∃ s, executeAll (step fun n : ℕ => n) {} retried = some s ∧
      s.destructor = .returned ∧ s.published = [3, 7] := ⟨_, rfl, rfl, rfl⟩
  obtain ⟨s, hs, hreturned, hpublished⟩ := hrun
  obtain ⟨-, -, -, hdeletes⟩ := held_exactly_once (.of_executeAll _ hs)
  exact ⟨s, hpublished, (hdeletes hreturned).2⟩

/-! ## The operations are on nodes that exist -/

/-- A call can always make its next operation, unless that is `new`. -/
theorem advances {pt : Point Args} (h : Reachable construct s) (hi : s.threads[i]? = some (some pt)) :
    (∃ expected args, pt = .new expected args) ∨ ∃ s', step construct s (.advance i) = some s' := by
  have hholds := holds h
  -- a node that is published or that a call has is on the heap
  have hexists : ∀ a, s.published.count a + s.pendings a ≠ 0 → ∃ node, s.heap a = some node := by
    intro a hne
    have howned := hholds.owned a
    rw [hholds.untouched (.inl (hholds.notCalled hi)), List.count_nil] at howned
    apply Option.ne_none_iff_exists'.mp
    intro hnone
    simp only [State.allocated, hnone, Option.isSome_none, Bool.false_eq_true, if_false] at howned
    omega
  suffices hpoint : (∃ expected args, pt = .new expected args) ∨ ∃ r, pt.step s = some r by
    rcases hpoint with hnew | ⟨r, hr⟩
    · exact .inl hnew
    · right
      simp only [step, hi, hr, Option.map_some]
      exact ⟨_, rfl⟩
  cases pt with
  | load args => exact .inr ⟨_, rfl⟩
  | new expected args => exact .inl ⟨expected, args, rfl⟩
  | compareExchange expected newNode =>
    right
    simp only [Point.step]
    split <;> exact ⟨_, rfl⟩
  | setNext expected newNode =>
    have hle := le_tally (fun p : Option (Point Args) => (pending p).count newNode) hi
    have hone : (pending (some (.setNext expected newNode) : Option (Point Args))).count newNode = 1 :=
      List.count_singleton_self
    obtain ⟨node, hnode⟩ := hexists newNode (by unfold State.pendings; omega)
    exact .inr ⟨_, by simp only [Point.step, hnode, Option.map_some]; rfl⟩
  | address newNode =>
    have hle := le_tally (fun p : Option (Point Args) => (addressed p).count newNode) hi
    have hone : (addressed (some (.address newNode) : Option (Point Args))).count newNode = 1 :=
      List.count_singleton_self
    have hreturned := hholds.returned newNode
    obtain ⟨node, hnode⟩ := hexists newNode (by omega)
    exact .inr ⟨_, by simp only [Point.step, hnode, Option.map_some]; rfl⟩

end UnifyPrototype.ThreadSafeAddOnlyContainer
