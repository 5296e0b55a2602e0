import Mathlib.Data.Fin.VecNotation
import UnifyPrototype.ControlFlow.ForestSteps

/-!
# Decision forests are evaluated from left to right

Every step keeps the invariant of a forest, so a transition that has come to rest has computed the
values of the roots.
-/

namespace UnifyPrototype.ControlFlow

open UnifyPrototype.Utils

variable {g : DecisionGraph} {a : Assignment g} {s s' : State g} {f : ℕ}

/-! ## The invariant -/

/-- Nodes that change have started. -/
lemma willNotRunRequests_update (h : ∀ i, s.status i = .notStarted →
    (s.node i).willNotRunRequests = 0) {p : Fin g.size} {n : NodeState}
    (hn : n.runStatus ≠ .notStarted) (hnode : s'.node = Function.update s.node p n)
    (i : Fin g.size) (hi : s'.status i = .notStarted) : (s'.node i).willNotRunRequests = 0 := by
  unfold State.status at hi
  rw [hnode] at hi ⊢
  by_cases hp : i = p
  · subst hp
    rw [Function.update_self] at hi
    exact absurd hi hn
  · rw [Function.update_of_ne hp] at hi ⊢
    exact h i hi

lemma leftDecision_update {p q : Fin g.size} {n : NodeState}
    (h : q = p → n.leftDecision = (s.node p).leftDecision) :
    (Function.update s.node p n q).leftDecision = (s.node q).leftDecision := by
  by_cases hq : q = p
  · subst hq
    rw [Function.update_self, h rfl]
  · rw [Function.update_of_ne hq]

/-- A new request to the right composite of `p` comes with the left decision. -/
lemma told_right (hforest : g.IsForest) (h : s.Told) {p l r : Fin g.size} {logic : Logic}
    (hkind : g.kind p = .binary logic l r) (hleft : (s.node p).leftDecision = .notStarted)
    {n : NodeState} (hn : n.leftDecision ≠ .notStarted) (hmade : s'.made = s.made)
    (hnode : s'.node = Function.update s.node p n)
    (htold : ∀ j, s'.told j = s.told j + if r = j then 1 else 0) :
    (∀ i ∈ g.leafNodes, s'.told i = 1) ∧
    (∀ p logic l r, g.kind p = .binary logic l r → s'.told l = (s'.made.map Prod.fst).count p) ∧
    ∀ p logic l r, g.kind p = .binary logic l r →
      s'.told r = s'.made.count (p, .noRequestComing) + (s'.node p).leftDecision.arrived := by
  refine ⟨fun i hi => ?_, fun q logic' l' r' hkind' => ?_, fun q logic' l' r' hkind' => ?_⟩
  · have hne : r ≠ i := fun heq => hforest.right_notMem_roots hkind (heq ▸ hi)
    rw [htold, if_neg hne, h.root i hi]
  · rw [htold, if_neg (hforest.left_ne_right hkind' hkind).symm, hmade, h.left q logic' l' r' hkind', Nat.add_zero]
  · rw [htold, hmade, hnode, h.right q logic' l' r' hkind']
    by_cases hq : q = p
    · subst hq
      obtain ⟨-, -, rfl⟩ := by simpa using hkind.symm.trans hkind'
      rw [Function.update_self, arrived_of_ne hn, arrived_eq_zero.mpr hleft, if_pos rfl]
    · have hne : r ≠ r' := by
        rintro rfl
        exact hq (hforest.right_unique hkind' hkind)
      rw [Function.update_of_ne hq, if_neg hne, Nat.add_zero]

/-- A step at a node that has started, which tells nobody anything. -/
lemma told_same (h : s.Told) (htold : ∀ j, s'.told j = s.told j) (hreceived : s'.received = s.received)
    (hmade : s'.made = s.made) {p : Fin g.size} {n : NodeState}
    (hnode : s'.node = Function.update s.node p n) (hn : n.runStatus ≠ .notStarted)
    (hleft : n.leftDecision = (s.node p).leftDecision) : s'.Told := by
  refine ⟨?_, willNotRunRequests_update h.willNotRunRequests hn hnode, fun i hi => ?_,
    fun q logic l r hkind => ?_, fun q logic l r hkind => ?_⟩
  · rw [hreceived, hmade, h.received]
  · rw [htold, h.root i hi]
  · rw [htold, hmade, h.left q logic l r hkind]
  · rw [htold, hmade, hnode, leftDecision_update fun _ => hleft, h.right q logic l r hkind]

/-- Each step of a forest keeps what nodes were told. -/
lemma told_progress (hforest : g.IsForest) (h : s.InForest f a) (hp : Progress a s s') :
    s'.Told := by
  cases hp with
  | @madeLeaf i σ rest hagenda hstatus hkind heq =>
    have htold : ∀ j, s'.told j = s.told j + tally (Call.tells j) [] :=
      told_of_request hagenda (by rw [heq]; rfl) (by rw [heq])
    have hmade : s'.made = s.made ++ [(i, σ)] := by rw [heq]
    have hne : ∀ {p logic l r}, g.kind p = .binary logic l r → i ≠ p := by
      rintro p logic l r hp rfl
      rw [hkind] at hp
      cases hp
    refine ⟨?_, ?_, fun j hj => ?_, fun p logic l r hp => ?_, fun p logic l r hp => ?_⟩
    · rw [heq, h.told.received]
    · refine willNotRunRequests_update h.told.willNotRunRequests ?_ (congrArg State.node heq)
      cases σ <;> simp [RequestState.runStatus]
    · exact (htold j).trans (h.told.root j hj)
    · refine (htold l).trans ((h.told.left p logic l r hp).trans ?_)
      simp [hmade, hne hp]
    · refine (htold r).trans ((h.told.right p logic l r hp).trans ?_)
      simp [hne hp, heq, leftDecision_update]
  | @madeBinary i σ rest logic l r hagenda hstatus hkind heq =>
    have htold : ∀ j, s'.told j = s.told j + tally (Call.tells j)
        (.request l σ :: if σ = .noRequestComing then [.request r σ] else []) :=
      told_of_request hagenda (by rw [heq]) (by rw [heq])
    -- the left composite is told what the node was told, the right one only that nobody will ask
    have hchildren : ∀ j, s'.told j = s.told j + (if l = j then 1 else 0)
        + if r = j ∧ σ = .noRequestComing then 1 else 0 := by
      intro j
      rw [htold, tally_cons, Call.tells]
      cases σ <;> simp [Call.tells, Nat.add_assoc]
    have hmade : s'.made = s.made ++ [(i, σ)] := by rw [heq]
    refine ⟨?_, ?_, fun j hj => ?_, fun q logic' l' r' hq => ?_, fun q logic' l' r' hq => ?_⟩
    · rw [heq, h.told.received]
    · exact willNotRunRequests_update h.told.willNotRunRequests (by simp) (congrArg State.node heq)
    · have hl : l ≠ j := fun hl => hforest.left_notMem_roots hkind (hl ▸ hj)
      have hr : r ≠ j := fun hr => hforest.right_notMem_roots hkind (hr ▸ hj)
      rw [hchildren, h.told.root j hj]
      simp [hl, hr]
    · have hr := (hforest.left_ne_right hq hkind).symm
      rw [hchildren, hmade, h.told.left q logic' l' r' hq]
      by_cases hi : i = q
      · subst hi
        obtain ⟨-, rfl, -⟩ := by simpa using hkind.symm.trans hq
        simp [hr]
      · have hl : l ≠ l' := by
          rintro rfl
          exact hi (hforest.left_unique hkind hq)
        -- in a forest no other node has this left composite
        simp [hl, hr, hi]
    · have hl := hforest.left_ne_right hkind hq
      have hleft : (s'.node q).leftDecision = (s.node q).leftDecision := by
        rw [heq]
        exact leftDecision_update fun _ => rfl
      rw [hchildren, if_neg hl, hmade, h.told.right q logic' l' r' hq, hleft]
      by_cases hi : i = q
      · subst hi
        obtain ⟨-, -, rfl⟩ := by simpa using hkind.symm.trans hq
        cases σ <;> simp
        omega
      · have hr : r ≠ r' := by
          rintro rfl
          exact hi (hforest.right_unique hkind hq)
        -- in a forest no other node has this right composite
        simp [hr, hi]
  | @finished i d rest hagenda heq =>
    have htold : ∀ j, s'.told j = s.told j + tally (Call.tells j) [] :=
      told_of_decision hagenda (by rw [heq]; rfl) (by rw [heq])
    have hnode : s'.node = s.node := by rw [heq]
    have hmade : s'.made = s.made := by rw [heq]
    refine ⟨?_, ?_, fun j hj => ?_, fun p logic l r hp => ?_, fun p logic l r hp => ?_⟩
    · rw [heq, h.told.received]
    · unfold State.status
      rw [hnode]
      exact h.told.willNotRunRequests
    · exact (htold j).trans (h.told.root j hj)
    · rw [hmade]
      exact (htold l).trans (h.told.left p logic l r hp)
    · rw [hmade, hnode]
      exact (htold r).trans (h.told.right p logic l r hp)
  | @asked p rest logic l r hagenda hkind hsettles heq =>
    obtain ⟨-, hprogress, -, -, hfirst⟩ := h.next_in_order hforest hkind hagenda
    have hleft := (hfirst.resolve_right fun hr => hforest.distinct.left_ne_right hkind hr.1).2
    have htold : ∀ j, s'.told j = s.told j + tally (Call.tells j) [.request r .requestDecision] :=
      told_of_decision hagenda (by rw [heq]; rfl) (by rw [heq])
    obtain ⟨hroot, hl, hr⟩ := told_right hforest h.told hkind hleft
      (by simpa using eval_ne_notStarted l) (by rw [heq]) (congrArg State.node heq) htold
    refine ⟨by rw [heq, h.told.received], ?_, hroot, hl, hr⟩
    refine willNotRunRequests_update h.told.willNotRunRequests ?_ (congrArg State.node heq)
    rw [store_runStatus, show (s.node p).runStatus = _ from hprogress]
    decide
  | @short p rest logic l r hagenda hkind hsettles heq =>
    obtain ⟨-, -, -, -, hfirst⟩ := h.next_in_order hforest hkind hagenda
    have hleft := (hfirst.resolve_right fun hr => hforest.distinct.left_ne_right hkind hr.1).2
    have htold : ∀ j, s'.told j = s.told j + tally (Call.tells j)
        ((g.requestors p).map (.decision · p (eval a p)) ++ [.request r .noRequestComing]) :=
      told_of_decision hagenda (by rw [heq]) (by rw [heq])
    simp only [tally_append, tells_decisions, Nat.zero_add] at htold
    obtain ⟨hroot, hl, hr⟩ := told_right hforest h.told hkind hleft
      (by simpa using eval_ne_notStarted l) (by rw [heq]) (congrArg State.node heq) htold
    refine ⟨by rw [heq, h.told.received], ?_, hroot, hl, hr⟩
    exact willNotRunRequests_update h.told.willNotRunRequests (by simp) (congrArg State.node heq)
  | @full p rest logic l r hagenda hkind heq =>
    have htold : ∀ j, s'.told j = s.told j + tally (Call.tells j)
        ((g.requestors p).map (.decision · p (eval a p))) :=
      told_of_decision hagenda (by rw [heq]) (by rw [heq])
    simp only [tells_decisions, Nat.add_zero] at htold
    exact told_same h.told htold (by rw [heq]) (by rw [heq]) (congrArg State.node heq) (by simp)
      (by simp)
  | @ran k i hagenda htask hkind heq =>
    have htold : ∀ j, s'.told j = s.told j := by
      intro j
      unfold State.told
      rw [heq, hagenda, tells_decisions]
      rfl
    exact told_same h.told htold (by rw [heq]) (by rw [heq]) (congrArg State.node heq) (by simp)
      (by simp)

/-- After a step a status is that of the node that changed, or an old one. -/
lemma status_of_update {p : Fin g.size} {n : NodeState} (hnode : s'.node = Function.update s.node p n)
    {j : Fin g.size} {x : RunStatus} (h : s'.status j = x) :
    j = p ∧ n.runStatus = x ∨ j ≠ p ∧ s.status j = x := by
  unfold State.status at h ⊢
  rw [hnode] at h
  by_cases hj : j = p
  · subst hj
    rw [Function.update_self] at h
    exact .inl ⟨rfl, h⟩
  · rw [Function.update_of_ne hj] at h
    exact .inr ⟨hj, h⟩

/-- What is still true of the nodes when `p` is given the members `n`. -/
lemma nodes_of_update (h : s.Evaluates a) {p : Fin g.size} {n : NodeState}
    (hnode : s'.node = Function.update s.node p n)
    (htask : n.runStatus = .shouldRun → Visited a p)
    (hcompleted : n.runStatus = .completed → Visited a p)
    (hleft : ∀ logic l r, g.kind p = .binary logic l r → n.leftDecision ≠ .notStarted →
      n.leftDecision = eval a l)
    (hdone : ∀ logic l r, g.kind p = .binary logic l r → n.runStatus = .completed →
      n.leftDecision ≠ .notStarted ∧
        (logic.Settles (eval a l) ∨ n.rightDecision ≠ .notStarted)) :
    (∀ i, s'.status i = .shouldRun → Visited a i) ∧ (∀ i, s'.status i = .completed → Visited a i) ∧
    (∀ q logic l r, g.kind q = .binary logic l r → (s'.node q).leftDecision ≠ .notStarted →
      (s'.node q).leftDecision = eval a l) ∧
    ∀ q logic l r, g.kind q = .binary logic l r → s'.status q = .completed →
      (s'.node q).leftDecision ≠ .notStarted ∧
        (logic.Settles (eval a l) ∨ (s'.node q).rightDecision ≠ .notStarted) := by
  refine ⟨fun i hi => ?_, fun i hi => ?_, fun q logic l r hq => ?_, fun q logic l r hq hc => ?_⟩
  · rcases status_of_update hnode hi with ⟨rfl, hn⟩ | ⟨-, hs⟩
    · exact htask hn
    · exact h.task i hs
  · rcases status_of_update hnode hi with ⟨rfl, hn⟩ | ⟨-, hs⟩
    · exact hcompleted hn
    · exact h.completed i hs
  · rw [hnode]
    by_cases hp : q = p
    · subst hp
      rw [Function.update_self]
      exact hleft logic l r hq
    · rw [Function.update_of_ne hp]
      exact h.left q logic l r hq
  · rcases status_of_update hnode hc with ⟨rfl, hn⟩ | ⟨hne, hs⟩
    · rw [hnode, Function.update_self]
      exact hdone logic l r hq hn
    · rw [hnode, Function.update_of_ne hne]
      exact h.done q logic l r hq hs

/-- The decisions on their way after a call. -/
lemma deliveries_of_agenda {rest : List (Call (Fin g.size))} {c : Call (Fin g.size)}
    (hagenda : s.agenda = c :: rest) (calls : List (Call (Fin g.size)))
    (hagenda' : s'.agenda = calls ++ rest)
    {e : Requestor (Fin g.size) × Fin g.size × ControlFlowStatus} (he : e ∈ s'.deliveries) :
    e ∈ calls.filterMap Call.delivery ∨ e ∈ s.deliveries := by
  unfold State.deliveries at he ⊢
  rw [hagenda', List.filterMap_append, List.mem_append] at he
  refine he.imp_right fun hrest => ?_
  rw [hagenda]
  exact ((List.sublist_cons_self c rest).filterMap Call.delivery).subset hrest

/-- The requests that are about to be made after a call, and those that were made. -/
lemma request_of_agenda (h : s.Evaluates a) {rest : List (Call (Fin g.size))}
    {c : Call (Fin g.size)} (hagenda : s.agenda = c :: rest) (calls : List (Call (Fin g.size)))
    (hagenda' : s'.agenda = calls ++ rest)
    (hcalls : ∀ i σ, .request i σ ∈ calls → (σ = .requestDecision ↔ Visited a i))
    (hmade : ∀ i σ, (i, σ) ∈ s'.made → (i, σ) ∈ s.made ∨ c = .request i σ) (i : Fin g.size)
    (σ : RequestState) (hi : .request i σ ∈ s'.agenda ∨ (i, σ) ∈ s'.made) :
    σ = .requestDecision ↔ Visited a i := by
  rcases hi with hi | hi
  · rw [hagenda', List.mem_append] at hi
    rcases hi with hi | hi
    · exact hcalls i σ hi
    · exact h.request i σ (.inl (hagenda ▸ List.mem_cons_of_mem _ hi))
  · rcases hmade i σ hi with hold | rfl
    · exact h.request i σ (.inr hold)
    · exact h.request i σ (.inl (hagenda ▸ List.mem_cons_self))

/-- The decision that a node sends is the value of the node. -/
lemma delivery_of_sent {i : Fin g.size} {q : Requestor (Fin g.size)} {j : Fin g.size}
    {d : ControlFlowStatus}
    (h : (q, j, d) ∈ ((g.requestors i).map (Call.decision · i (eval a i))).filterMap Call.delivery) :
    d = eval a j := by
  rw [filterMap_decisions, List.mem_map] at h
  obtain ⟨c, -, heq⟩ := h
  obtain ⟨rfl, rfl, rfl⟩ := by simpa using heq
  rfl

/-- One more decision is sent, and it is the one the node evaluates to. -/
lemma sent_append (h : s.Evaluates a) {i : Fin g.size} (hsent : s'.sent = s.sent ++ [(i, eval a i)])
    (j : Fin g.size) (d : ControlFlowStatus) (hj : (j, d) ∈ s'.sent) : d = eval a j := by
  rw [hsent, List.mem_append] at hj
  rcases hj with hj | hj
  · exact h.sent j d hj
  · obtain ⟨rfl, rfl⟩ := by simpa using hj
    rfl

/-- Each step of a forest goes on with the evaluation. -/
lemma evaluates_progress (hforest : g.IsForest) (h : s.InForest f a) (hp : Progress a s s') :
    s'.Evaluates a := by
  have he := h.evaluates
  cases hp with
  | @madeLeaf i σ rest hagenda hstatus hkind heq =>
    have hσ := he.request i σ (.inl (hagenda ▸ List.mem_cons_self))
    obtain ⟨htask, hcompleted, hleft, hdone⟩ := nodes_of_update he (congrArg State.node heq)
      (fun hs => hσ.mp (by cases σ <;> simp_all [RequestState.runStatus]))
      (fun hs => by cases σ <;> simp [RequestState.runStatus] at hs)
      (he.left i) (fun logic l r hi => by rw [hkind] at hi; cases hi)
    refine ⟨request_of_agenda he hagenda [] (by rw [heq]; rfl) (by simp) ?_, htask,
      hcompleted, fun q j d hmem => ?_, ?_, hleft, hdone⟩
    · intro j τ hj
      rw [heq] at hj
      simpa [eq_comm] using hj
    · have hold := deliveries_of_agenda hagenda [] (by rw [heq]; rfl) hmem
      exact he.delivery q j d (hold.resolve_left List.not_mem_nil)
    · rw [heq]
      exact he.sent
  | @madeBinary i σ rest logic l r hagenda hstatus hkind heq =>
    have hσ := he.request i σ (.inl (hagenda ▸ List.mem_cons_self))
    obtain ⟨htask, hcompleted, hleft, hdone⟩ := nodes_of_update he (congrArg State.node heq)
      (by simp) (by simp) (he.left i) (by simp)
    refine ⟨request_of_agenda he hagenda _ (by rw [heq]) ?_ ?_, htask,
      hcompleted, fun q j d hmem => ?_, ?_, hleft, hdone⟩
    · intro j τ hj
      rcases List.mem_cons.mp hj with hj | hj
      · obtain ⟨rfl, rfl⟩ := by simpa using hj
        exact hσ.trans (visited_left hforest hkind).symm
      · split at hj
        next hno =>
          obtain ⟨rfl, rfl⟩ := by simpa using hj
          -- nobody wants the node, so nobody wants its right composite
          rw [hσ, visited_right hforest hkind]
          exact ⟨fun hi => absurd (hσ.mpr hi) (by simp [hno]), And.left⟩
        next => cases hj
    · intro j τ hj
      rw [heq] at hj
      simpa [eq_comm] using hj
    · rcases deliveries_of_agenda hagenda _ (by rw [heq]) hmem with hnew | hold
      · cases σ <;> cases hnew
      · exact he.delivery q j d hold
    · rw [heq]
      exact he.sent
  | @finished i d rest hagenda heq =>
    have hnode : s'.node = Function.update s.node i (s.node i) := by
      rw [heq, Function.update_eq_self]
    obtain ⟨htask, hcompleted, hleft, hdone⟩ := nodes_of_update he hnode (he.task i)
      (he.completed i) (he.left i) (he.done i)
    refine ⟨request_of_agenda he hagenda [] (by rw [heq]; rfl) (by simp) ?_, htask,
      hcompleted, fun q j d hmem => ?_, ?_, hleft, hdone⟩
    · rw [heq]
      exact fun j τ => .inl
    · have hold := deliveries_of_agenda hagenda [] (by rw [heq]; rfl) hmem
      exact he.delivery q j d (hold.resolve_left List.not_mem_nil)
    · rw [heq]
      exact he.sent
  | @asked p rest logic l r hagenda hkind hsettles heq =>
    obtain ⟨hvisited, hprogress, -, -, -⟩ := h.next_in_order hforest hkind hagenda
    have hstatus : (s.node p).runStatus = .inProgress := hprogress
    have hstored : ∀ logic' l' r', g.kind p = .binary logic' l' r' → eval a l = eval a l' := by
      intro logic' l' r' hp
      rw [hkind] at hp
      obtain ⟨-, rfl, -⟩ := by simpa using hp
      rfl
    obtain ⟨htask, hcompleted, hleft, hdone⟩ := nodes_of_update he (congrArg State.node heq)
      (by simp [hstatus]) (by simp [hstatus])
      (fun logic' l' r' hp _ => by simpa using hstored logic' l' r' hp) (by simp [hstatus])
    refine ⟨request_of_agenda he hagenda [.request r .requestDecision]
      (by rw [heq]; rfl) ?_ ?_, htask, hcompleted, fun q j d hmem => ?_, ?_, hleft, hdone⟩
    · intro j τ hj
      obtain ⟨rfl, rfl⟩ := by simpa using hj
      simp [visited_right hforest hkind, hvisited, hsettles]
    · rw [heq]
      exact fun j τ => .inl
    · have hold := deliveries_of_agenda hagenda [.request r .requestDecision]
        (by rw [heq]; rfl) hmem
      exact he.delivery q j d (hold.resolve_left List.not_mem_nil)
    · rw [heq]
      exact he.sent
  | @short p rest logic l r hagenda hkind hsettles heq =>
    obtain ⟨hvisited, -⟩ := h.next_in_order hforest hkind hagenda
    have hsame : ∀ logic' l' r', g.kind p = .binary logic' l' r' → logic = logic' ∧ l = l' := by
      intro logic' l' r' hp
      rw [hkind] at hp
      obtain ⟨rfl, rfl, -⟩ := by simpa using hp
      exact ⟨rfl, rfl⟩
    obtain ⟨htask, hcompleted, hleft, hdone⟩ := nodes_of_update he (congrArg State.node heq)
      (by simp) (fun _ => hvisited)
      (fun logic' l' r' hp _ => by simp [(hsame logic' l' r' hp).2])
      (fun logic' l' r' hp _ => by
        obtain ⟨rfl, rfl⟩ := hsame logic' l' r' hp
        exact ⟨by simpa using eval_ne_notStarted l, .inl hsettles⟩)
    refine ⟨request_of_agenda he hagenda _ (by rw [heq]) ?_ ?_, htask, hcompleted,
      fun q j d hmem => ?_, sent_append he (by rw [heq]), hleft, hdone⟩
    · intro j τ hj
      obtain ⟨rfl, rfl⟩ := by simpa using hj
      simp [visited_right hforest hkind, hsettles]
    · rw [heq]
      exact fun j τ => .inl
    · rcases deliveries_of_agenda hagenda _ (by rw [heq]) hmem with hnew | hold
      · rw [List.filterMap_append, List.mem_append] at hnew
        exact delivery_of_sent (hnew.resolve_right List.not_mem_nil)
      · exact he.delivery q j d hold
  | @full p rest logic l r hagenda hkind heq =>
    obtain ⟨hvisited, -, -, -, hfirst⟩ := h.next_in_order hforest hkind hagenda
    obtain ⟨-, hvalue, -⟩ := hfirst.resolve_left fun hl => hforest.distinct.left_ne_right hkind hl.1.symm
    have hne : (s.node p).leftDecision ≠ .notStarted := hvalue ▸ eval_ne_notStarted l
    obtain ⟨htask, hcompleted, hleft, hdone⟩ := nodes_of_update he (congrArg State.node heq)
      (by simp) (fun _ => hvisited)
      (fun logic' l' r' hp hn => by simpa using he.left p logic' l' r' hp hne)
      (fun logic' l' r' hp _ => by simpa using ⟨hne, .inr (eval_ne_notStarted r)⟩)
    refine ⟨request_of_agenda he hagenda _ (by rw [heq]) (by simp) ?_, htask, hcompleted,
      fun q j d hmem => ?_, sent_append he (by rw [heq]), hleft, hdone⟩
    · rw [heq]
      exact fun j τ => .inl
    · rcases deliveries_of_agenda hagenda _ (by rw [heq]) hmem with hnew | hold
      · exact delivery_of_sent hnew
      · exact he.delivery q j d hold
  | @ran k i hagenda htask hkind heq =>
    have hstatus := h.recorded.status_of_mem_tasks (List.mem_of_getElem? htask)
    obtain ⟨htask, hcompleted, hleft, hdone⟩ := nodes_of_update he (congrArg State.node heq)
      (by simp) (fun _ => he.task i hstatus) (he.left i)
      (fun logic l r hi => by rw [hkind] at hi; cases hi)
    refine ⟨fun j τ hj => he.request j τ (.inr ?_), htask, hcompleted, fun q j d hmem => ?_,
      sent_append he (by rw [heq]), hleft, hdone⟩
    · rw [heq] at hj
      simpa using hj
    · rw [State.deliveries, heq] at hmem
      exact delivery_of_sent hmem

lemma State.Ready.told (hforest : g.IsForest) (h : s.Ready) : (startAsync s).Told := by
  have htold : ∀ i, (startAsync s).told i = g.leafNodes.count i := by
    intro i
    show tally _ (g.leafNodes.map (Call.request · .requestDecision))
      + (s.received.map Prod.fst).count i = _
    rw [h.received, tally_map]
    show _ + 0 = _
    induction g.leafNodes with
    | nil => rfl
    | cons c l ih =>
      rw [tally_cons, List.count_cons, ← ih, Call.tells]
      simp [Nat.add_comm]
  have hmade : (startAsync s).made = [] := h.made
  refine ⟨?_, fun i _ => h.willNotRunRequests i, fun i hi => ?_, fun p logic l r hkind => ?_,
    fun p logic l r hkind => ?_⟩
  · rw [hmade]
    exact h.received
  · rw [htold, hforest.count_roots hi]
  · rw [htold, hmade, List.count_eq_zero.mpr (hforest.left_notMem_roots hkind)]
    rfl
  · have harrivals := h.arrivals p logic l r hkind
    simp only [State.arrivals, Prod.mk.injEq] at harrivals
    rw [htold, hmade, List.count_eq_zero.mpr (hforest.right_notMem_roots hkind)]
    show 0 = 0 + (s.node p).leftDecision.arrived
    rw [harrivals.2.1]
    rfl

lemma State.Ready.evaluates (a : Assignment g) (h : s.Ready) : (startAsync s).Evaluates a := by
  have hstatus : ∀ i, (startAsync s).status i = .notStarted := h.status
  refine ⟨fun i σ hi => ?_, fun i hi => ?_, fun i hi => ?_, fun q i d hd => ?_, fun i d hd => ?_,
    fun p logic l r hkind hleft => ?_, fun p logic l r _ hc => ?_⟩
  · rcases hi with hi | hi
    · obtain ⟨j, hj, heq⟩ := List.mem_map.mp hi
      obtain ⟨rfl, rfl⟩ := by simpa using heq
      exact ⟨fun _ => .root hj, fun _ => rfl⟩
    · rw [show (startAsync s).made = [] from h.made] at hi
      cases hi
  · rw [hstatus] at hi
    cases hi
  · rw [hstatus] at hi
    cases hi
  · unfold State.deliveries at hd
    obtain ⟨c, hc, heq⟩ := List.mem_filterMap.mp hd
    obtain ⟨j, -, rfl⟩ := List.mem_map.mp hc
    cases heq
  · rw [show (startAsync s).sent = [] from h.sent] at hd
    cases hd
  · have harrivals := h.arrivals p logic l r hkind
    simp only [State.arrivals, Prod.mk.injEq] at harrivals
    exact absurd harrivals.2.1 hleft
  · rw [hstatus] at hc
    cases hc

/-- **The invariant of a forest**, in a transition from a state that is ready. -/
theorem inForest (hforest : g.IsForest) (h : s.Ready)
    (hrun : Reaches (step a) (startAsync s) s') : s'.InForest s.finishedLeafNodes a := by
  refine hrun.invariant ⟨h.recorded, h.delivered, h.told hforest, h.evaluates a⟩ ?_
  intro t b u ht _ hstep
  have hmoves := moves hstep
  have hp := progress hforest ht hmoves
  exact ⟨recorded_step hmoves ht.recorded, delivered_step ht.recorded hmoves ht.delivered,
    told_progress hforest ht hp, evaluates_progress hforest ht hp⟩

/-- In a forest every request comes in time. -/
lemma requestInTime_of_inForest (hforest : g.IsForest) (h : s.InForest f a) (b : Label) :
    s.RequestInTime b := by
  unfold State.RequestInTime
  split
  next i rest hagenda =>
    obtain ⟨hstatus, -⟩ := h.next_request hforest hagenda
    unfold State.InTime
    cases hkind : g.kind i with
    | leaf =>
      show s.status i ≠ .willNotRun
      rw [hstatus]
      decide
    | binary logic l r =>
      -- a left decision that is there came from a node that its parent had told
      refine .inr (.inl ⟨hstatus, ?_⟩)
      by_contra hleft
      refine h.started_of_left hkind ?_ hstatus
      rw [h.completed_of_left hforest hkind hleft]
      decide
  next => trivial

/-- In a forest a node that was asked has decided or is about to. -/
lemma settled_of_isForest (hforest : g.IsForest) (h : s.Ready)
    (hrun : Reaches (step a) (startAsync s) s') : s'.Settled :=
  settled hforest.distinct h (hrun.strengthen (inForest hforest h) fun _ b ht _ =>
    requestInTime_of_inForest hforest ht b)

/-! ## When nothing is pending -/

/-- What a record of the nodes' calls says about node `i`. -/
def entries {β : Type} (l : List (Fin g.size × β)) (i : Fin g.size) : List β :=
  l.filterMap fun e => if e.1 = i then some e.2 else none

/-- The calls of `makeDecisionAsync_` of node `i`. -/
def State.calls (s : State g) (i : Fin g.size) : List RequestState :=
  entries s.made i

/-- The decisions that node `i` has sent. -/
def State.decisions (s : State g) (i : Fin g.size) : List ControlFlowStatus :=
  entries s.sent i

lemma length_entries {β : Type} (l : List (Fin g.size × β)) (i : Fin g.size) :
    (entries l i).length = (l.map Prod.fst).count i := by
  induction l with
  | nil => rfl
  | cons e l ih =>
    unfold entries at ih ⊢
    by_cases he : e.1 = i <;> simp [he, ih]

lemma mem_entries {β : Type} {l : List (Fin g.size × β)} {i : Fin g.size} {b : β} :
    b ∈ entries l i ↔ (i, b) ∈ l := by
  simp [entries]

/-- One entry, and what is known of all entries. -/
lemma entries_eq {β : Type} {l : List (Fin g.size × β)} {i : Fin g.size}
    (hcount : (l.map Prod.fst).count i = 1) {b : β} (h : ∀ b', (i, b') ∈ l → b' = b) :
    entries l i = [b] := by
  rw [← length_entries] at hcount
  obtain ⟨b', hb⟩ := List.length_eq_one_iff.mp hcount
  rw [hb, h b' (mem_entries.mp (hb ▸ List.mem_singleton_self b'))]

/-- Every node has been told: a parent tells its composites, or decides and then has told them. -/
lemma started_of_quiet (hforest : g.IsForest) (h : s.InForest f a) (hsettled : s.Settled)
    (hquiet : s.Quiet) (i : Fin g.size) : s.status i ≠ .notStarted := by
  have hdone := completed_of_asked hforest.distinct h.recorded h.delivered hsettled hquiet
  have htold : ∀ j, s.told j = if s.status j = .notStarted then 0 else 1 := by
    intro j
    unfold State.told
    rw [hquiet.1, tally_nil, Nat.zero_add, h.told.received, h.recorded.made]
  -- parents are younger than their composites, so the induction goes down from the last node
  induction hn : g.size - i.val using Nat.strong_induction_on generalizing i with
  | _ n ih =>
    intro hi
    have hnot := htold i
    rw [if_pos hi] at hnot
    rcases hforest.root_or_child i with hroot | ⟨p, logic, l, r, hkind, rfl | rfl⟩
    · rw [h.told.root i hroot] at hnot
      cases hnot
    · have hlt := DecisionGraph.left_lt hkind
      have hp := ih (g.size - p.val) (by omega) p rfl
      rw [h.told.left p logic i r hkind, h.made_of_started hp] at hnot
      cases hnot
    · have hlt := DecisionGraph.right_lt hkind
      have hp := ih (g.size - p.val) (by omega) p rfl
      rw [h.told.right p logic l i hkind] at hnot
      have hmem : p ∈ s.made.map Prod.fst :=
        List.count_pos_iff.mp (by rw [h.made_of_started hp]; exact Nat.one_pos)
      obtain ⟨⟨q, σ⟩, hmade, rfl⟩ := List.mem_map.mp hmem
      cases σ with
      | noRequestComing =>
        have hcount := List.count_pos_iff.mpr hmade
        dsimp only at hnot
        omega
      | requestDecision =>
        -- the parent was asked, so it has decided, with the left decision there
        have hasked : s.Asked q := by
          unfold State.Asked
          rw [h.told.received]
          exact hmade
        have harrived := arrived_of_ne (h.evaluates.done q logic l i hkind (hdone q hasked)).1
        dsimp only at hnot
        omega

/-- What a forest has done when nothing is pending: nodes that the evaluation visits were asked
once and have sent their value, the others were told once that nobody asks. -/
lemma calls_decisions (hforest : g.IsForest) (h : s.InForest f a) (hsettled : s.Settled)
    (hquiet : s.Quiet) (i : Fin g.size) :
    (Visited a i → s.calls i = [.requestDecision] ∧ s.decisions i = [eval a i]) ∧
      (¬ Visited a i → s.calls i = [.noRequestComing] ∧ s.decisions i = []) := by
  have hone := h.made_of_started (started_of_quiet hforest h hsettled hquiet i)
  have hrequest := fun σ hσ => h.evaluates.request i σ (.inr hσ)
  refine ⟨fun hi => ?_, fun hi => ?_⟩
  · have hcalls : s.calls i = [.requestDecision] :=
      entries_eq hone fun σ hσ => (hrequest σ hσ).mpr hi
    have hasked : s.Asked i := by
      unfold State.Asked
      rw [h.told.received]
      refine mem_entries.mp (show _ ∈ s.calls i from ?_)
      rw [hcalls]
      exact List.mem_singleton_self _
    have hdone := completed_of_asked hforest.distinct h.recorded h.delivered hsettled hquiet i hasked
    exact ⟨hcalls, entries_eq (sent_of_completed h.recorded hdone) (h.evaluates.sent i)⟩
  · refine ⟨entries_eq hone fun σ hσ => ?_, List.length_eq_zero_iff.mp ?_⟩
    · cases σ with
      | requestDecision => exact absurd ((hrequest _ hσ).mp rfl) hi
      | noRequestComing => rfl
    · unfold State.decisions
      rw [length_entries, h.recorded.sent, if_neg fun hc => hi (h.evaluates.completed i hc)]

/-- When nothing is left to do each root has been counted. -/
lemma finished_of_quiet (hforest : g.IsForest) (h : s.InForest f a) (hsettled : s.Settled)
    (hquiet : s.Quiet) : s.finishedLeafNodes = f + g.leafNodes.length := by
  refine finished_of_completed h.delivered hquiet fun i hi => ?_
  refine completed_of_asked hforest.distinct h.recorded h.delivered hsettled hquiet i ?_
  have hroot := hsettled.roots i hi
  unfold State.Requested at hroot
  rw [hquiet.1] at hroot
  exact hroot.resolve_right List.not_mem_nil

/-- **A decision forest computes its value.** Whatever was done so far, nothing is pending in the
end. Then every root has sent one decision, its value, and all roots are counted; every leaf was
called once, and asked for its decision if and only if the evaluation visits it. -/
theorem forest_evaluates (g : DecisionGraph) (hforest : g.IsForest) (a : Assignment g)
    (s : State g) (hrun : Reaches (step a) (startAsync {}) s) :
    (∃ s', Reaches (step a) s s' ∧ s'.Quiet) ∧
    (s.Quiet →
      (∀ i ∈ g.leafNodes, s.decisions i = [eval a i]) ∧
      s.finishedLeafNodes = g.leafNodes.length ∧
      ∀ i, (Visited a i → s.calls i = [.requestDecision]) ∧
        (¬ Visited a i → s.calls i = [.noRequestComing])) := by
  refine ⟨exists_quiet a s, fun hquiet => ?_⟩
  have h := inForest hforest ready_default hrun
  have hsettled := settled_of_isForest hforest ready_default hrun
  have hcalls := calls_decisions hforest h hsettled hquiet
  refine ⟨fun i hi => ((hcalls i).1 (.root hi)).2, ?_, fun i => ⟨?_, ?_⟩⟩
  · exact (finished_of_quiet hforest h hsettled hquiet).trans (Nat.zero_add _)
  · exact fun hi => ((hcalls i).1 hi).1
  · exact fun hi => ((hcalls i).2 hi).1

/-- `a` is `GO`, `b` is `SKIP`, `c` is `EXCEPTION`. -/
def goSkipException : Assignment andOrForest where
  status i := if i.val = 0 then .go else if i.val = 1 then .skip else .exception
  status_ne i := by
    split
    · decide
    · split <;> decide

lemma eval_andOrForest : eval goSkipException ⟨4, by decide⟩ = .exception := by
  have hand : andOrForest.kind ⟨4, by decide⟩ = .binary .and ⟨0, by decide⟩ ⟨3, by decide⟩ := rfl
  have hor : andOrForest.kind ⟨3, by decide⟩ = .binary .or ⟨1, by decide⟩ ⟨2, by decide⟩ := rfl
  rw [eval_binary hand, eval_leaf rfl, eval_binary hor, eval_leaf rfl, eval_leaf rfl]
  rfl

theorem forest_evaluates_andOrForest : ∃ s : State andOrForest,
    Reaches (step goSkipException) (startAsync {}) s ∧ s.Quiet ∧
      s.decisions ⟨4, by decide⟩ = [.exception] := by
  have hforest : andOrForest.IsForest := by decide
  obtain ⟨s, hrun, hquiet⟩ := (forest_evaluates andOrForest hforest goSkipException _ .refl).1
  refine ⟨s, hrun, hquiet, ?_⟩
  obtain ⟨hroots, -⟩ := (forest_evaluates andOrForest hforest goSkipException s hrun).2 hquiet
  rw [← eval_andOrForest]
  exact hroots _ (by decide)

end UnifyPrototype.ControlFlow
